import ZkStf.Model.Handlers

namespace ZkStf
open ZkStf.Basis
open ZkStf.Basis.Ballots (Phase)
variable {C : Crypto}

/-- The certificate of the greatest view, the last such one in reading order. -/
def maxByView (qcs : List (QC C)) : Option (QC C) :=
  qcs.foldl
    (fun best q =>
      match best with
      | none => some q
      | some b => if b.view ≤ q.view then some q else some b) none

/-- The certificate a leader extends, among the NEW-VIEWs it collected. -/
def highQc (newViews : List (Nat × Option (QC C))) : Option (QC C) :=
  maxByView (newViews.filterMap Prod.snd)

/-- The height of the leaf to propose, `none` when the node of the certificate
is not in the tree. -/
def newHeight (w : Wiring C) (rs : ReplicaState C) :
    Option (QC C) → Outcome C (Option UInt64)
  | none => .ok (some 0)
  | some q =>
    match rs.tree.get? q.nodeHash with
    | none => .ok none
    | some parentNode => (addOneHeight w parentNode.height).map some

/-- Broadcast a proposal and keep it like a received one. -/
def sendProposal (w : Wiring C) (leaf : Node C) (high : Option (QC C)) (r : Replica C) :
    Replica C :=
  let v := r.rs.view
  (r.withRs (fun rs => (stashProposal v leaf high rs).vdMut v (fun d =>
    { d with broadcastProposal := true }))).emit (.broadcast (.proposal v leaf high w.myId))

def leaderPrepare (w : Wiring C) (ord : Order) (r : Replica C) : Outcome C (Replica C) :=
  let v := r.rs.view
  let newViews := (r.rs.vd (v - 1)).newViewMsgs
  if r.rs.leaderFor v ≠ w.myId then .ok r
  else if (r.rs.vd v).broadcastProposal then .ok r
  else if newViews.size < r.rs.quorum then .ok r
  else
    let high := highQc (ord.list .newViewMsgs newViews.entries)
    match newHeight w r.rs high with
    | .error e => .error e
    | .ok none => .ok r
    | .ok (some height) =>
      if w.workload.manifest.numBlocks.toNat ≤ height.toNat then .ok r
      else
        match w.workload.block height with
        | .error e => .error e
        | .ok block =>
          let leaf : Node C := ⟨expectedParent high, block.cmd, height⟩
          maybeKickValidation w (nodeHash leaf) (sendProposal w leaf high r)

/-- Sign a vote of the current view; a leader counts its own at once. -/
def castVote (w : Wiring C) (p : Phase) (nh : C.Hash) (r : Replica C) : Replica C :=
  let v := r.rs.view
  let sig := signVote w.sk (msgTypeOf p) v nh
  let signed := r.emit (.sign (voteDigest (msgTypeOf p) v nh) (r.rs.validationResult nh))
  let sent :=
    if r.rs.leaderFor v = w.myId then
      signed.withRs (fun rs => rs.vdMut v (fun d =>
        { d with votes := Function.update d.votes p ((d.votes p).insert w.myId (nh, sig)) }))
    else signed.emit (.sendTo (r.rs.leaderFor v) (.vote (msgTypeOf p) v nh w.myId sig))
  sent.withRs (fun rs => rs.vdMut v (fun d => { d with voted := Function.update d.voted p true }))

def skipPrepare (r : Replica C) : Replica C :=
  r.withRs (fun rs => rs.vdMut rs.view (fun d =>
    { d with voted := Function.update d.voted .prepare true }))

def replicaPrepare (w : Wiring C) (r : Replica C) : Outcome C (Replica C) :=
  let v := r.rs.view
  match (r.rs.vd v).proposal with
  | none => .ok r
  | some (leaf, high) =>
    if (r.rs.vd v).voted .prepare then .ok r
    else
      match r.rs.validationResult (nodeHash leaf) with
      | none => .ok r
      | some false => .ok (skipPrepare r)
      | some true =>
        if !safeNode leaf high r.rs.lockedQc r.rs.tree then .ok (skipPrepare r)
        else .ok (castVote w .prepare (nodeHash leaf) r)

/-- The message type that announces a certificate of the phase. -/
def announcedBy : Phase → MsgType
  | .prepare => .preCommit
  | .preCommit => .commit
  | .commit => .decide

/-- A leader's certificate rule: once its bucket of phase `p` holds a quorum,
broadcast the certificate and stage it for the leader's own replica rules. -/
def leaderQc (p : Phase) (w : Wiring C) (ord : Order) (r : Replica C) : Outcome C (Replica C) :=
  let v := r.rs.view
  if r.rs.leaderFor v ≠ w.myId then .ok r
  else if (r.rs.vd v).broadcast p then .ok r
  else
    match formQc ord ((r.rs.vd v).votes p) (msgTypeOf p) v r.rs.quorum with
    | none => .ok r
    | some qc =>
      .ok ((r.withRs (fun rs => stageQc p v qc (rs.vdMut v (fun d =>
        { d with broadcast := Function.update d.broadcast p true })))).emit
          (.broadcast (.phaseQc (announcedBy p) v qc w.myId)))

def leaderPreCommit (w : Wiring C) (ord : Order) (r : Replica C) : Outcome C (Replica C) :=
  leaderQc .prepare w ord r

def leaderCommit (w : Wiring C) (ord : Order) (r : Replica C) : Outcome C (Replica C) :=
  leaderQc .preCommit w ord r

def leaderDecide (w : Wiring C) (ord : Order) (r : Replica C) : Outcome C (Replica C) :=
  leaderQc .commit w ord r

/-- A replica's reaction to a staged certificate of phase `p`: keep it through
`hold`, then vote in the next phase. -/
def replicaVote (p next : Phase) (hold : QC C → ReplicaState C → ReplicaState C) (w : Wiring C)
    (r : Replica C) : Outcome C (Replica C) :=
  let v := r.rs.view
  if !(r.rs.vd v).seen p ∨ (r.rs.vd v).voted next then .ok r
  else
    match r.rs.staged p v with
    | none => .ok r
    | some qc => .ok (castVote w next qc.nodeHash (r.withRs (hold qc)))

def holdPrepare (qc : QC C) (rs : ReplicaState C) : ReplicaState C :=
  { rs with prepareQc := some qc }

def holdLock (qc : QC C) (rs : ReplicaState C) : ReplicaState C :=
  { rs with lockedQc := some qc }

def replicaPreCommit (w : Wiring C) (r : Replica C) : Outcome C (Replica C) :=
  replicaVote .prepare .preCommit holdPrepare w r

def replicaCommit (w : Wiring C) (r : Replica C) : Outcome C (Replica C) :=
  replicaVote .preCommit .commit holdLock w r

def replicaDecide (w : Wiring C) (r : Replica C) : Outcome C (Replica C) :=
  let v := r.rs.view
  if !(r.rs.vd v).seen .commit then .ok r
  else
    match r.rs.staged .commit v with
    | none => .ok r
    | some qc =>
      (tryExecuteChain w qc.nodeHash (r.withRs (fun rs =>
        { rs with decidedNodes := rs.decidedNodes.insert qc.nodeHash () }))).bind (fun r' =>
          (addOne w v).bind (fun next =>
            .ok (enterNewView w next (r'.withRs (fun rs =>
              { rs with timeoutIntervalMs := w.timeoutBaseMs })))))

end ZkStf
