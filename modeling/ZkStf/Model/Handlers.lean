import ZkStf.Model.Execute

namespace ZkStf
open ZkStf.Basis
open ZkStf.Basis.Ballots (Phase)
variable {C : Crypto}

/-- The phase whose certificate a phase message of the type carries. -/
def certifiedPhase : MsgType → Option Phase
  | .preCommit => some .prepare
  | .commit => some .preCommit
  | .decide => some .commit
  | _ => none

/-- The phase a vote of the type counts for. -/
def votedPhase : MsgType → Option Phase
  | .prepare => some .prepare
  | .preCommit => some .preCommit
  | .commit => some .commit
  | _ => none

/-- Map the replica state of a node. -/
def Replica.withRs (r : Replica C) (f : ReplicaState C → ReplicaState C) : Replica C :=
  { r with rs := f r.rs }

/-- Keep a proposed node, and the proposal itself unless the view has one. -/
def stashProposal (view : Nat) (node : Node C) (justify : Option (QC C)) (rs : ReplicaState C) :
    ReplicaState C :=
  { rs with tree := rs.tree.insert (nodeHash node) node }.vdMut view (fun d =>
    { d with proposal := d.proposal.or (some (node, justify)) })

/-- Stage a certificate for the phase rules, the first one of its view only. -/
def stageQc (p : Phase) (view : Nat) (qc : QC C) (rs : ReplicaState C) : ReplicaState C :=
  if (rs.vd view).seen p then rs
  else
    { rs.vdMut view (fun d => { d with seen := Function.update d.seen p true }) with
      staged := Function.update rs.staged p (Function.update (rs.staged p) view (some qc)) }

/-- A commit certificate from the wire also records the decision at once, so
that one which arrives after its view was left still gets executed. -/
def receiveQc (p : Phase) (view : Nat) (qc : QC C) (rs : ReplicaState C) : ReplicaState C :=
  if (rs.vd view).seen p then rs
  else
    match p with
    | .commit =>
      { stageQc p view qc rs with decidedNodes := rs.decidedNodes.insert qc.nodeHash () }
    | _ => stageQc p view qc rs

def recordVote (p : Phase) (view voter : Nat) (nh : C.Hash) (sig : C.Sig) (rs : ReplicaState C) :
    ReplicaState C :=
  rs.vdMut view (fun d =>
    { d with votes := Function.update d.votes p ((d.votes p).insertNew voter (nh, sig)) })

def recordNewView (view sender : Nat) (justify : Option (QC C)) (rs : ReplicaState C) :
    ReplicaState C :=
  rs.vdMut view (fun d => { d with newViewMsgs := d.newViewMsgs.insertNew sender justify })

def handleProposal (keys : Nat → Option C.Key) (w : Wiring C) (view : Nat) (node : Node C)
    (justify : Option (QC C)) (sender : Nat) (r : Replica C) : Outcome C (Replica C) :=
  if sender ≠ r.rs.leaderFor view then .ok r
  else if !verifyJustify justify r.rs.quorum keys then .ok r
  else if node.parent ≠ expectedParent justify then .ok r
  else maybeKickValidation w (nodeHash node) (r.withRs (stashProposal view node justify))

def handlePhaseQc (keys : Nat → Option C.Key) (ty : MsgType) (view : Nat) (justify : QC C)
    (sender : Nat) (r : Replica C) : Outcome C (Replica C) :=
  if sender ≠ r.rs.leaderFor view then .ok r
  else
    match certifiedPhase ty with
    | none => .ok r
    | some p =>
      if justify.msgType ≠ msgTypeOf p ∨ justify.view ≠ view then .ok r
      else if !verifyQc justify r.rs.quorum keys then .ok r
      else .ok (r.withRs (receiveQc p view justify))

/-- A vote counts under the voter it names. The signature is checked against
that voter's key, unless the voter named is the node itself. -/
def handleVote (keys : Nat → Option C.Key) (w : Wiring C) (ty : MsgType) (view : Nat)
    (nh : C.Hash) (voter : Nat) (sig : C.Sig) (r : Replica C) : Outcome C (Replica C) :=
  if r.rs.leaderFor view ≠ w.myId then .ok r
  else if voter ≠ w.myId ∧ !(keys voter).any (fun pk => verifyVoteSig pk ty view nh sig) then .ok r
  else
    match votedPhase ty with
    | none => .ok r
    | some p => .ok (r.withRs (recordVote p view voter nh sig))

def handleNewView (keys : Nat → Option C.Key) (w : Wiring C) (view : Nat)
    (justify : Option (QC C)) (sender : Nat) (r : Replica C) : Outcome C (Replica C) :=
  match addOne w view with
  | .error e => .error e
  | .ok next =>
    if r.rs.leaderFor next ≠ w.myId then .ok r
    else if !verifyJustify justify r.rs.quorum keys then .ok r
    else .ok (r.withRs (recordNewView view sender justify))

def handleMsg (keys : Nat → Option C.Key) (w : Wiring C) (r : Replica C) :
    Wire C → Outcome C (Replica C)
  | .hello _ _ => .ok r
  | .proposal view node justify sender => handleProposal keys w view node justify sender r
  | .phaseQc ty view justify sender => handlePhaseQc keys ty view justify sender r
  | .vote ty view nh voter sig => handleVote keys w ty view nh voter sig r
  | .newView view justify sender => handleNewView keys w view justify sender r

/-- The view transition: a NEW-VIEW of the view left behind goes to the leader
of the new one, and that view's timer is armed. -/
def enterNewView (w : Wiring C) (newView : Nat) (r : Replica C) : Replica C :=
  let prev := r.rs.view
  let moved := r.withRs (fun rs => { rs with view := newView })
  let leader := r.rs.leaderFor newView
  let told :=
    if leader = w.myId then
      moved.withRs (fun rs => rs.vdMut prev (fun d =>
        { d with newViewMsgs := d.newViewMsgs.insert w.myId rs.prepareQc }))
    else moved.emit (.sendTo leader (.newView prev r.rs.prepareQc w.myId))
  told.emit (.armTimer newView r.rs.timeoutIntervalMs)

def handleTimer (w : Wiring C) (view : Nat) (r : Replica C) : Outcome C (Replica C) :=
  if view ≠ r.rs.view then .ok r
  else if (r.rs.vd r.rs.view).seen .commit then .ok r
  else
    match addOne w r.rs.view with
    | .error e => .error e
    | .ok next =>
      .ok (enterNewView w next (r.withRs (fun rs =>
        { rs with timeoutIntervalMs := min (rs.timeoutIntervalMs * 2) (2 ^ 64 - 1) })))

def ingestValidation (out : ValidateOutcome C) (rs : ReplicaState C) : ReplicaState C :=
  { rs with
    validationResult := Function.update rs.validationResult out.nodeHash (some out.valid)
    postStateByNode := match out.postState with
      | some s => Function.update rs.postStateByNode out.nodeHash (some s)
      | none => rs.postStateByNode
    postRootByNode := match out.postRoot with
      | some h => Function.update rs.postRootByNode out.nodeHash (some h)
      | none => rs.postRootByNode
    preRootByNode := match out.preRoot with
      | some h => Function.update rs.preRootByNode out.nodeHash (some h)
      | none => rs.preRootByNode
    pendingValidation :=
      if rs.pendingValidation = some out.nodeHash then none else rs.pendingValidation }

end ZkStf
