import Mathlib.Data.Finset.Basic
import ZkStf.Model.Rules

namespace ZkStf
open ZkStf.Basis
variable {C : Crypto}

/-- The rules of one `try_advance` pass. -/
inductive Rule
  | leaderPrepare
  | replicaPrepare
  | leaderPreCommit
  | replicaPreCommit
  | leaderCommit
  | replicaCommit
  | leaderDecide
  | replicaDecide
  | retryPendingExecute
  | tryKickPendingValidations
deriving DecidableEq, Repr

def Rule.run (w : Wiring C) (ord : Order) (r : Replica C) : Rule → Outcome C (Replica C)
  | .leaderPrepare => ZkStf.leaderPrepare w ord r
  | .replicaPrepare => ZkStf.replicaPrepare w r
  | .leaderPreCommit => ZkStf.leaderPreCommit w ord r
  | .replicaPreCommit => ZkStf.replicaPreCommit w r
  | .leaderCommit => ZkStf.leaderCommit w ord r
  | .replicaCommit => ZkStf.replicaCommit w r
  | .leaderDecide => ZkStf.leaderDecide w ord r
  | .replicaDecide => ZkStf.replicaDecide w r
  | .retryPendingExecute => ZkStf.retryPendingExecute w ord r
  | .tryKickPendingValidations => ZkStf.tryKickPendingValidations w ord r

def passOrder : List Rule :=
  [.leaderPrepare, .replicaPrepare, .leaderPreCommit, .replicaPreCommit, .leaderCommit,
    .replicaCommit, .leaderDecide, .replicaDecide, .retryPendingExecute,
    .tryKickPendingValidations]

def runRules (w : Wiring C) (ord : Order) : List Rule → Replica C → Outcome C (Replica C)
  | [], r => .ok r
  | rule :: rest, r => (rule.run w ord r).bind (runRules w ord rest)

def tryAdvance (w : Wiring C) (ord : Order) (r : Replica C) : Outcome C (Replica C) :=
  runRules w ord passOrder r

/-- A node before it entered its first view. -/
def bootReplica (w : Wiring C) (n : Nat) : Replica C where
  rs := .new C n w.timeoutBaseMs
  liveState := initState w.validator w.workload.manifest
  chainedRoot := C.zero
  valReqs := []
  effects := []

def startProtocol (w : Wiring C) (r : Replica C) : Replica C :=
  enterNewView w 1 (r.withRs (fun rs => { rs with view := 0 }))

/-- What the event loop waits for: a message, a timer, or the answer to the
`k`-th outstanding validation. The worker answers oldest first, `k = 0`, and a
validation that panics takes the worker with it: its answer never comes. -/
inductive Event (C : Crypto)
  | message (msg : Wire C)
  | timer (view : Nat)
  | validated (k : Nat)

def handleEvent (keys : Nat → Option C.Key) (w : Wiring C) (r : Replica C) :
    Event C → Outcome C (Replica C)
  | .message msg => handleMsg keys w r msg
  | .timer view => handleTimer w view r
  | .validated k =>
    match r.valReqs[k]? with
    | none => .ok r
    | some (req, input) =>
      (runValidation w.overflowChecks w.workload req input w.validator).map (fun out =>
        { r with valReqs := r.valReqs.eraseIdx k }.withRs (ingestValidation out))

/-- The event loop ends once every block of the workload is executed. -/
def finished (w : Wiring C) (r : Replica C) : Prop :=
  (w.workload.manifest.numBlocks.toNat : Int) ≤ r.rs.lastExecutedHeight + 1

instance (w : Wiring C) (r : Replica C) : Decidable (finished w r) :=
  inferInstanceAs (Decidable (_ ≤ _))

/-- A running node: its state and the rules its current pass has still to run. -/
structure Machine (C : Crypto) where
  replica : Replica C
  todo : List Rule

def Machine.start (w : Wiring C) (n : Nat) : Machine C :=
  ⟨startProtocol w (bootReplica w n), passOrder⟩

/-- One step of a node, with the event it consumed if it was idle. Events wait
until the pass is over; every other node may move between any two steps. -/
inductive Machine.Step (keys : Nat → Option C.Key) (w : Wiring C) :
    Option (Event C) → Machine C → Machine C → Prop
  | event (ev : Event C) (r r' : Replica C) (running : ¬ finished w r)
      (ran : handleEvent keys w r ev = .ok r') : Step keys w (some ev) ⟨r, []⟩ ⟨r', passOrder⟩
  | rule (ord : Order) (rule : Rule) (rest : List Rule) (r r' : Replica C)
      (ran : rule.run w ord r = .ok r') : Step keys w none ⟨r, rule :: rest⟩ ⟨r', rest⟩

/-- The view passes `u64::MAX`: a build without overflow checks goes on in view 0. -/
def Wraps (r r' : Replica C) : Prop := 2 ^ 64 ≤ r.rs.view + 1 ∧ r'.rs.view = 0

instance (r r' : Replica C) : Decidable (Wraps r r') := inferInstanceAs (Decidable (_ ∧ _))

/-- The states of one node among `n`, whatever it receives and whatever keys it
holds at each moment, as long as no view passes `u64::MAX`. -/
inductive Machine.Reach (w : Wiring C) (n : Nat) : Machine C → Prop
  | start : Reach w n (.start w n)
  | step {m m' : Machine C} (keys : Nat → Option C.Key) (ev : Option (Event C)) :
      Reach w n m → Machine.Step keys w ev m m' → ¬ Wraps m.replica m'.replica → Reach w n m'

/-- A cluster: `n` replicas, those in `byz` under the adversary's control. The
source counts them in a `u32`. -/
structure Cluster (C : Crypto) where
  n : Nat
  small : n < 2 ^ 32 := by decide
  byz : Finset Nat
  key : Nat → C.Key
  secret : Nat → C.Secret
  workload : Workload C
  validator : Nat → Validator C
  timeoutBaseMs : Nat
  overflowChecks : Bool

namespace Cluster

def faults (K : Cluster C) : Nat := (K.n - 1) / 3

def Honest (K : Cluster C) (i : Nat) : Prop := i < K.n ∧ i ∉ K.byz

instance (K : Cluster C) (i : Nat) : Decidable (K.Honest i) :=
  inferInstanceAs (Decidable (_ ∧ _))

/-- The true key of each id in range, and no other. -/
def peerKeys (K : Cluster C) (i : Nat) : Option C.Key :=
  if i < K.n then some (K.key i) else none

def wiring (K : Cluster C) (i : Nat) : Wiring C where
  myId := i
  sk := K.secret i
  workload := K.workload
  validator := K.validator i
  timeoutBaseMs := K.timeoutBaseMs
  overflowChecks := K.overflowChecks

end Cluster

/-- The nodes of a cluster by id; only the honest ones ever move. -/
abbrev System (C : Crypto) := Nat → Machine C

def System.replicas (s : System C) (i : Nat) : Replica C := (s i).replica

/-- Which messages may reach a node, as the nodes stand. -/
abbrev Delivery (C : Crypto) := (Nat → Replica C) → Nat → Wire C → Prop

/-- Messages are delivered at will: any message that the network admits may
arrive at any moment, repeatedly or never. No view passes `u64::MAX`. -/
inductive System.Step (K : Cluster C) (net : Delivery C) : System C → System C → Prop
  | move (s : System C) (i : Nat) (ev : Option (Event C)) (m : Machine C) (honest : K.Honest i)
      (admitted : ∀ msg, ev = some (.message msg) → net s.replicas i msg)
      (moved : Machine.Step K.peerKeys (K.wiring i) ev (s i) m)
      (bounded : ¬ Wraps (s i).replica m.replica) :
      Step K net s (Function.update s i m)

def System.start (K : Cluster C) : System C := fun i => .start (K.wiring i) K.n

inductive System.Reach (K : Cluster C) (net : Delivery C) : System C → Prop
  | start : Reach K net (System.start K)
  | step {s s' : System C} : Reach K net s → System.Step K net s s' → Reach K net s'

end ZkStf
