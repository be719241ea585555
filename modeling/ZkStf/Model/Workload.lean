import ZkStf.Model.Ledger

namespace ZkStf
open ZkStf.Basis

/-- Ways a node stops: its panics, an overflowing addition where the build
checks for it, and a loop that never ends. -/
inductive Abort (Hash : Type)
  | commitJson (height : UInt64)
  | workloadCorruption (height : UInt64) (blockNumber : UInt32)
  | invalidTxHash (text : String)
  | chainNodeMissing
  | chainBreak (height : UInt64) (pre expected : Hash)
  | overflow
  | diverges

abbrev Outcome (C : Crypto) (α : Type) := Except (Abort C.Hash) α

/-- The parsed fields of a block's `commit.json`. -/
structure BlockMeta where
  blockNumber : UInt32
  txHash : String
  txsTotal : UInt32

/-- A block's files are named by the height its directory is numbered with. -/
structure BlockRef (C : Crypto) where
  cmd : C.Hash
  info : BlockMeta
  txsPath : UInt64
  proofPath : UInt64

/-- A workload directory as its readers see it. Each lookup stands for reading
and decoding one file and is `none` where that fails. -/
structure Workload (C : Crypto) where
  manifest : Manifest
  commitJson : UInt64 → Option BlockMeta
  transactions : UInt64 → Option (List Tx)
  proof : UInt64 → Option C.Proof

def blockAt {C : Crypto} (w : Workload C) (height : UInt64) : Outcome C (BlockRef C) :=
  match w.commitJson height with
  | none => .error (.commitJson height)
  | some info =>
    if info.blockNumber.toNat ≠ height.toNat then
      .error (.workloadCorruption height info.blockNumber)
    else
      match C.hexDecode info.txHash with
      | none => .error (.invalidTxHash info.txHash)
      | some cmd => .ok ⟨cmd, info, height, height⟩

def Workload.block {C : Crypto} (w : Workload C) (height : UInt64) : Outcome C (BlockRef C) :=
  blockAt w height

/-- A slow node sleeps after a re-execution, `slowDelayPerTxNs` for each transaction;
a fast one has 0 there. -/
inductive Validator (C : Crypto)
  | reexecute (slowDelayPerTxNs : UInt64)
  | verify (vkey : C.VKey)

def Validator.reexecutes {C : Crypto} : Validator C → Bool
  | .reexecute _ => true
  | .verify _ => false

structure ValidateRequest (C : Crypto) where
  nodeHash : C.Hash
  height : UInt64
  txsPath : UInt64
  proofPath : UInt64
  txsTotal : UInt32

structure ValidateOutcome (C : Crypto) where
  nodeHash : C.Hash
  height : UInt64
  valid : Bool
  postState : Option State
  postRoot : Option C.Hash
  preRoot : Option C.Hash

def invalidOutcome {C : Crypto} (req : ValidateRequest C) : ValidateOutcome C :=
  ⟨req.nodeHash, req.height, false, none, none, none⟩

/-- The validator's unit of work. Neither mode compares the files with the
block's command: re-execution trusts `transactions.bin`, verification trusts
the public values of an accepted proof. A build that checks for overflow panics in
`apply_block`, or where the length of the sleep is computed. -/
def runValidation {C : Crypto} (overflowChecks : Bool) (w : Workload C) (req : ValidateRequest C)
    (snapshot : State) : Validator C → Outcome C (ValidateOutcome C)
  | .reexecute slowDelayPerTxNs =>
    match w.transactions req.txsPath with
    | none => .ok (invalidOutcome req)
    | some txs =>
      if overflowChecks ∧ (overflows (snapshot, 0) txs ≠ [] ∨
          2 ^ 64 ≤ slowDelayPerTxNs.toNat * req.txsTotal.toNat) then .error .overflow
      else .ok ⟨req.nodeHash, req.height, true, some (applyBlock snapshot txs).1, none, none⟩
  | .verify vkey =>
    match w.proof req.proofPath with
    | none => .ok (invalidOutcome req)
    | some proof =>
      if C.verifyProof vkey proof then
        let commit := C.publicValues proof
        .ok ⟨req.nodeHash, req.height, true, none, some commit.postStateRoot,
          some commit.preStateRoot⟩
      else .ok (invalidOutcome req)

/-- Verifying nodes only chain roots and keep no balances. -/
def initState {C : Crypto} (v : Validator C) (m : Manifest) : State :=
  if v.reexecutes then genesisState m else .new

end ZkStf
