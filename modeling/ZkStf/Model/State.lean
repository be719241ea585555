import Mathlib.Logic.Function.Basic
import ZkStf.Model.Workload

namespace ZkStf
open ZkStf.Basis
open ZkStf.Basis.Ballots (Phase)

/-- Per-view bookkeeping. The three voting rounds share one shape, so their
fields are indexed by the phase of the votes: `voted p` and `votes p` belong to
the votes of phase `p`, while `seen p` and `broadcast p` belong to the message
that carries the certificate made of them. So `seen .prepare` is the flag
`seen_pre_commit_qc` and `broadcast .commit` is `broadcast_decide`. -/
structure ViewData (C : Crypto) where
  proposal : Option (Node C × Option (QC C))
  voted : Phase → Bool
  seen : Phase → Bool
  newViewMsgs : EntryMap Nat (Option (QC C))
  votes : Phase → EntryMap Nat (C.Hash × C.Sig)
  broadcastProposal : Bool
  broadcast : Phase → Bool

def ViewData.fresh (C : Crypto) : ViewData C :=
  ⟨none, fun _ => false, fun _ => false, .empty, fun _ => .empty, false, fun _ => false⟩

/-- `viewData` is total since a missing entry is read as a default one
everywhere. `staged p` holds the certificates of phase `p` by view, so
`staged .prepare` is `staged_pre_commit_qc`. -/
structure ReplicaState (C : Crypto) where
  n : Nat
  quorum : Nat
  view : Nat
  lockedQc : Option (QC C)
  prepareQc : Option (QC C)
  lastExecutedHeight : Int
  viewData : Nat → ViewData C
  tree : EntryMap C.Hash (Node C)
  validationResult : C.Hash → Option Bool
  pendingValidation : Option C.Hash
  postStateByNode : C.Hash → Option State
  postRootByNode : C.Hash → Option C.Hash
  preRootByNode : C.Hash → Option C.Hash
  decidedNodes : EntryMap C.Hash Unit
  staged : Phase → Nat → Option (QC C)
  timeoutIntervalMs : Nat

namespace ReplicaState
variable {C : Crypto}

def new (C : Crypto) (n timeoutBaseMs : Nat) : ReplicaState C where
  n := n
  quorum := n - (n - 1) / 3
  view := 0
  lockedQc := none
  prepareQc := none
  lastExecutedHeight := -1
  viewData := fun _ => .fresh C
  tree := .empty
  validationResult := fun _ => none
  pendingValidation := none
  postStateByNode := fun _ => none
  postRootByNode := fun _ => none
  preRootByNode := fun _ => none
  decidedNodes := .empty
  staged := fun _ _ => none
  timeoutIntervalMs := timeoutBaseMs

/-- Round robin: view `v` is led by node `(v - 1) mod n`. -/
def leaderFor (rs : ReplicaState C) (view : Nat) : Nat :=
  if view = 0 then 0 else (view - 1) % rs.n

def vd (rs : ReplicaState C) (view : Nat) : ViewData C := rs.viewData view

def vdMut (rs : ReplicaState C) (view : Nat) (f : ViewData C → ViewData C) : ReplicaState C :=
  { rs with viewData := Function.update rs.viewData view (f (rs.viewData view)) }

end ReplicaState

section
variable {C : Crypto}

/-- The ancestor walk, with the steps still allowed. The target is compared
before genesis is, and the bound only after a successful lookup. -/
def extendsLoop (target : C.Hash) (tree : EntryMap C.Hash (Node C)) : Nat → C.Hash → Bool
  | fuel, cur =>
    if cur = target then true
    else if cur = genesisHash C then false
    else
      match tree.get? cur, fuel with
      | none, _ => false
      | some _, 0 => false
      | some parentNode, fuel + 1 => extendsLoop target tree fuel parentNode.parent

def extendsFrom (node : Node C) (target : C.Hash) (tree : EntryMap C.Hash (Node C)) : Bool :=
  if nodeHash node = target then true else extendsLoop target tree 100000 node.parent

/-- One round of the loop of `extends_from`, from `cur` and `steps`: the answer, or
where the next round starts. -/
def extendsRound (target : C.Hash) (tree : EntryMap C.Hash (Node C)) :
    C.Hash × Nat → Bool ⊕ (C.Hash × Nat)
  | (cur, steps) =>
    if cur = target then .inl true
    else if cur = genesisHash C then .inl false
    else
      match tree.get? cur with
      | none => .inl false
      | some parentNode =>
        if 100000 < steps + 1 then .inl false else .inr (parentNode.parent, steps + 1)

/-- SafeNode: extend the locked node, or quote a certificate of a later view. -/
def safeNode (node : Node C) (qc lockedQc : Option (QC C)) (tree : EntryMap C.Hash (Node C)) :
    Bool :=
  match lockedQc with
  | none => true
  | some locked =>
    if extendsFrom node locked.nodeHash tree then true
    else
      match qc with
      | some q => decide (locked.view < q.view)
      | none => false

end

/-- What a node does towards the outside. `sign` records each call of
`sign_vote`, with the cached verdict on the node at that moment; `executed` is
the `execute` log line; the remaining log lines are left out. -/
inductive Effect (C : Crypto)
  | broadcast (msg : Wire C)
  | sendTo (peer : Nat) (msg : Wire C)
  | armTimer (view ms : Nat)
  | submit (req : ValidateRequest C) (input : State)
  | sign (digest : VoteDigest C.Hash) (verdict : Option Bool)
  | executed (height : UInt64) (nodeHash : C.Hash)

/-- A node's consensus task: the replica state, the ledger state and the root
chained from proofs, the validation requests not answered yet, and everything
the node has done so far. -/
structure Replica (C : Crypto) where
  rs : ReplicaState C
  liveState : State
  chainedRoot : C.Hash
  valReqs : List (ValidateRequest C × State)
  effects : List (Effect C)

def Replica.emit {C : Crypto} (r : Replica C) (e : Effect C) : Replica C :=
  { r with effects := r.effects ++ [e] }

/-- The fixed surroundings of a node. `overflowChecks` tells the dev profile,
where an overflowing addition panics, from the release profile. -/
structure Wiring (C : Crypto) where
  myId : Nat
  sk : C.Secret
  workload : Workload C
  validator : Validator C
  timeoutBaseMs : Nat
  overflowChecks : Bool

/-- A `u64` plus one: a view of the node or of a peer. -/
def addOne {C : Crypto} (w : Wiring C) (x : Nat) : Outcome C Nat :=
  if x + 1 < 2 ^ 64 then .ok (x + 1) else if w.overflowChecks then .error .overflow else .ok 0

def addOneHeight {C : Crypto} (w : Wiring C) (h : UInt64) : Outcome C UInt64 :=
  if h.toNat + 1 < 2 ^ 64 then .ok (h + 1) else if w.overflowChecks then .error .overflow else .ok 0

/-- The cast of a height to `i64`. -/
def asI64 (h : UInt64) : Int := h.toInt64.toInt

/-- The places where a hash map or set is iterated. -/
inductive Site
  | newViewMsgs
  | votes (ty : MsgType)
  | byNode (ty : MsgType)
  | decidedNodes
  | tree

/-- The order in which the runtime happens to enumerate each map. -/
structure Order where
  list : Site → {α : Type} → List α → List α
  perm : ∀ (site : Site) {α : Type} (l : List α), (list site l).Perm l

def Order.asStored : Order := ⟨fun _ _ l => l, fun _ _ l => .refl l⟩

end ZkStf
