import ZkStf.Model.Ledger

namespace ZkStf
open ZkStf.Basis

/-- The arguments of the workload generator, apart from where to start. -/
structure GeneratorArgs where
  numBlocks : UInt32 := 1
  numTxs : UInt32 := 100
  numAccounts : UInt32 := 10000
  initialBalance : UInt64 := 10000

def GeneratorArgs.manifest (args : GeneratorArgs) : Manifest :=
  ⟨args.numAccounts, args.initialBalance, args.numBlocks⟩

/-- What `commit.json` says of a block, without the measured times. -/
structure CommitJson where
  blockNumber : UInt32
  preStateRoot : String
  postStateRoot : String
  txHash : String
  txsApplied : UInt32
  txsTotal : UInt32
deriving DecidableEq, Repr

def nextSeed (seed : UInt64) : UInt64 := seed * 6364136223846793005 + 1

/-- One transfer: sender, recipient and amount each take a step of the seed. -/
def generateTx (numAccounts : UInt32) (seed : UInt64) : Tx × UInt64 :=
  let seed₁ := nextSeed seed
  let sender := (seed₁ % numAccounts.toUInt64).toUInt32
  let seed₂ := nextSeed seed₁
  let drawn := (seed₂ % numAccounts.toUInt64).toUInt32
  let recipient := if drawn = sender then (drawn + 1) % numAccounts else drawn
  let seed₃ := nextSeed seed₂
  (⟨sender, recipient, seed₃ % 10 + 1⟩, seed₃)

/-- The transactions of a block and the seed after them; `none` is the division
by zero in a ledger without accounts. -/
def generateTxs : Nat → UInt32 → UInt64 → Option (List Tx × UInt64)
  | 0, _, seed => some ([], seed)
  | numTxs + 1, numAccounts, seed =>
    if numAccounts = 0 then none
    else
      let drawn := generateTx numAccounts seed
      (generateTxs numTxs numAccounts drawn.2).map (fun rest => (drawn.1 :: rest.1, rest.2))

def generateInitialState (numAccounts : UInt32) (initialBalance : UInt64) : State :=
  (List.range numAccounts.toNat).foldl
    (fun s i => s.setBalance (UInt32.ofNat i) initialBalance) .new

/-- The files of a workload directory. What is written is what is read back. -/
inductive FileWrite (C : Crypto)
  | manifest (m : Manifest)
  | transactions (block : Nat) (txs : List Tx)
  | proof (block : Nat) (proof : C.Proof)
  | commitJson (block : Nat) (info : CommitJson)

/-- Hex text, and the verifying key of the ledger program. -/
structure Tools (C : Crypto) where
  hexEncode : C.Hash → String
  vkey : C.VKey

/-- The prover network, asked for a proof of a block: `none` when it fails. -/
abbrev Prover (C : Crypto) := Nat → State → List Tx → Option C.Proof

section
variable {C : Crypto} (tools : Tools C) (args : GeneratorArgs)

/-- One round of the main loop: the files it writes, and the state and the seed
for the next one unless it panics. -/
def generateBlock (prove : Prover C) (blockNum : Nat) (state : State) (seed : UInt64) :
    List (FileWrite C) × Option (State × UInt64) :=
  match generateTxs args.numTxs.toNat args.numAccounts seed with
  | none => ([], none)
  | some (txs, seed') =>
    let next := applyBlock state txs
    match computeStateRoot C state, computeStateRoot C next.1 with
    | some preRoot, some postRoot =>
      let txHash := hashTransactions C txs
      match prove blockNum state txs with
      | none => ([.transactions blockNum txs], none)
      | some proof =>
        let commit := C.publicValues proof
        if commit.preStateRoot ≠ preRoot ∨ commit.postStateRoot ≠ postRoot ∨
            commit.txHash ≠ txHash ∨ C.verifyProof tools.vkey proof = false then
          ([.transactions blockNum txs], none)
        else
          ([.transactions blockNum txs, .proof blockNum proof,
            .commitJson blockNum ⟨UInt32.ofNat blockNum, tools.hexEncode preRoot,
              tools.hexEncode postRoot, tools.hexEncode txHash, next.2, args.numTxs⟩],
            some (next.1, seed'))
    | _, _ => ([], none)

/-- The main loop, with the rounds still to go. The manifest is rewritten last. -/
def generateBlocks (prove : Prover C) : Nat → Nat → State → UInt64 → List (FileWrite C)
  | 0, _, _, _ => [.manifest args.manifest]
  | rounds + 1, blockNum, state, seed =>
    (generateBlock tools args prove blockNum state seed).1 ++
      ((generateBlock tools args prove blockNum state seed).2.map (fun next =>
        generateBlocks prove rounds (blockNum + 1) next.1 next.2)).getD []

/-- Replay the blocks before the one to resume from. -/
def skipBlocks : Nat → State → UInt64 → Option (State × UInt64)
  | 0, state, seed => some (state, seed)
  | rounds + 1, state, seed =>
    (generateTxs args.numTxs.toNat args.numAccounts seed).bind (fun drawn =>
      skipBlocks rounds (applyBlock state drawn.1).1 drawn.2)

/-- The files one run of the generator writes, in order. -/
def generate (prove : Prover C) (resumeFrom : UInt32) : List (FileWrite C) :=
  .manifest args.manifest ::
    ((skipBlocks args resumeFrom.toNat
      (generateInitialState args.numAccounts args.initialBalance) 12345).map (fun start =>
        generateBlocks tools args prove (args.numBlocks.toNat - resumeFrom.toNat)
          resumeFrom.toNat start.1 start.2)).getD []

end

/-- A run of the generator, which may be stopped after some number of files. -/
structure GeneratorRun (C : Crypto) where
  resumeFrom : UInt32 := 0
  prove : Prover C
  stopped : Option Nat

def GeneratorRun.writes {C : Crypto} (tools : Tools C) (args : GeneratorArgs)
    (run : GeneratorRun C) : List (FileWrite C) :=
  match run.stopped with
  | none => generate tools args run.prove run.resumeFrom
  | some files => (generate tools args run.prove run.resumeFrom).take files

structure Directory (C : Crypto) where
  manifest : Option Manifest
  transactions : Nat → Option (List Tx)
  proof : Nat → Option C.Proof
  commitJson : Nat → Option CommitJson

def Directory.empty (C : Crypto) : Directory C :=
  ⟨none, fun _ => none, fun _ => none, fun _ => none⟩

def Directory.write {C : Crypto} (dir : Directory C) : FileWrite C → Directory C
  | .manifest m => { dir with manifest := some m }
  | .transactions block txs =>
    { dir with transactions := Function.update dir.transactions block (some txs) }
  | .proof block proof => { dir with proof := Function.update dir.proof block (some proof) }
  | .commitJson block info =>
    { dir with commitJson := Function.update dir.commitJson block (some info) }

/-- The directory after some runs of the generator, one after the other. -/
def workloadDir {C : Crypto} (tools : Tools C) (args : GeneratorArgs)
    (runs : List (GeneratorRun C)) : Directory C :=
  (runs.flatMap (GeneratorRun.writes tools args)).foldl Directory.write (.empty C)

/-- Where the replay stops: a file it cannot read, a root it cannot compute, a
value that differs from the saved or the proven one, a proof that is refused. -/
inductive ReplayFailure
  | manifest
  | commitJson (block : Nat)
  | workloadCorruption (block : Nat) (blockNumber : UInt32)
  | transactions (block : Nat)
  | stateRoot (block : Nat)
  | txsApplied (block : Nat)
  | preStateRoot (block : Nat)
  | postStateRoot (block : Nat)
  | txHash (block : Nat)
  | proof (block : Nat)
  | proofPreStateRoot (block : Nat)
  | proofPostStateRoot (block : Nat)
  | proofTxHash (block : Nat)
  | verification (block : Nat)
deriving DecidableEq, Repr

section
variable {C : Crypto} (tools : Tools C) (dir : Directory C)

def replayBlock (blockNum : Nat) (state : State) : Except ReplayFailure State :=
  match dir.commitJson blockNum with
  | none => .error (.commitJson blockNum)
  | some info =>
    if info.blockNumber ≠ UInt32.ofNat blockNum then
      .error (.workloadCorruption blockNum info.blockNumber)
    else
      match dir.transactions blockNum with
      | none => .error (.transactions blockNum)
      | some txs =>
        let next := applyBlock state txs
        match computeStateRoot C state, computeStateRoot C next.1 with
        | some preRoot, some postRoot =>
          let txHash := hashTransactions C txs
          if next.2 ≠ info.txsApplied then .error (.txsApplied blockNum)
          else if tools.hexEncode preRoot ≠ info.preStateRoot then .error (.preStateRoot blockNum)
          else if tools.hexEncode postRoot ≠ info.postStateRoot then
            .error (.postStateRoot blockNum)
          else if tools.hexEncode txHash ≠ info.txHash then .error (.txHash blockNum)
          else
            match dir.proof blockNum with
            | none => .error (.proof blockNum)
            | some proof =>
              let commit := C.publicValues proof
              if commit.preStateRoot ≠ preRoot then .error (.proofPreStateRoot blockNum)
              else if commit.postStateRoot ≠ postRoot then .error (.proofPostStateRoot blockNum)
              else if commit.txHash ≠ txHash then .error (.proofTxHash blockNum)
              else if !C.verifyProof tools.vkey proof then .error (.verification blockNum)
              else .ok next.1
        | _, _ => .error (.stateRoot blockNum)

def replayBlocks : Nat → Nat → State → Except ReplayFailure State
  | 0, _, state => .ok state
  | rounds + 1, blockNum, state =>
    (replayBlock tools dir blockNum state).bind (replayBlocks rounds (blockNum + 1))

/-- The replay of a workload, from the genesis of its manifest. -/
def runWorkload : Except ReplayFailure State :=
  match dir.manifest with
  | none => .error .manifest
  | some m => replayBlocks tools dir m.numBlocks.toNat 0 (genesisState m)

end
end ZkStf
