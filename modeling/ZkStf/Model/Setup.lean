import ZkStf.Model.Generator
import ZkStf.Model.Workload

namespace ZkStf
variable {C : Crypto}

/-- A node reads three of the fields of a block's `commit.json`. -/
def CommitJson.blockMeta (info : CommitJson) : BlockMeta :=
  ⟨info.blockNumber, info.txHash, info.txsTotal⟩

/-- A directory with its manifest, as the nodes see it. -/
def Directory.workload (dir : Directory C) (manifest : Manifest) : Workload C where
  manifest := manifest
  commitJson height := (dir.commitJson height.toNat).map CommitJson.blockMeta
  transactions height := dir.transactions height.toNat
  proof height := dir.proof height.toNat

/-- `none` is a manifest that cannot be read. -/
def Workload.load (dir : Directory C) : Option (Workload C) := dir.manifest.map dir.workload

inductive Speed
  | fast
  | slow
deriving DecidableEq, Repr

inductive Mode
  | reexecute
  | verify
deriving DecidableEq, Repr

/-- In the hybrid mode the slow nodes verify, the fast ones still re-execute. -/
def thisNodeReexecutes : Mode → Speed → Bool
  | .reexecute, _ => true
  | .verify, speed => speed = .fast

/-- A verifying node takes its key from the program of the workload. -/
def buildValidator (vkey : C.VKey) (mode : Mode) (speed : Speed) (slowDelayPerTxNs : UInt64) :
    Validator C :=
  if thisNodeReexecutes mode speed then
    .reexecute (if speed = .slow then slowDelayPerTxNs else 0)
  else .verify vkey

end ZkStf
