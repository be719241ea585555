import ZkStf.Model.Machine

namespace ZkStf
open ZkStf.Basis
open ZkStf.Basis.Ballots (Phase)
variable {C : Crypto}

section vdMut
variable (rs : ReplicaState C) (v : Nat) (f : ViewData C → ViewData C)

@[simp] theorem vd_eq : rs.vd v = rs.viewData v := rfl
@[simp] theorem vdMut_view : (rs.vdMut v f).view = rs.view := rfl
@[simp] theorem vdMut_lastExecuted :
    (rs.vdMut v f).lastExecutedHeight = rs.lastExecutedHeight := rfl
@[simp] theorem vdMut_tree : (rs.vdMut v f).tree = rs.tree := rfl
@[simp] theorem vdMut_validationResult :
    (rs.vdMut v f).validationResult = rs.validationResult := rfl
@[simp] theorem vdMut_postStateByNode :
    (rs.vdMut v f).postStateByNode = rs.postStateByNode := rfl
@[simp] theorem vdMut_decidedNodes : (rs.vdMut v f).decidedNodes = rs.decidedNodes := rfl

theorem vdMut_viewData (v' : Nat) :
    (rs.vdMut v f).viewData v' = if v' = v then f (rs.viewData v) else rs.viewData v' := by
  simp only [ReplicaState.vdMut, Function.update_apply]

end vdMut

/-- A claim about every view's data survives an update of one view that keeps it. -/
theorem update_forall {P : Nat → α → Prop} {g : Nat → α} {v : Nat} {x : α}
    (h : ∀ v, P v (g v)) (hx : P v x) : ∀ v', P v' (Function.update g v x v') := by
  intro v'
  rw [Function.update_apply]
  split
  · subst v'
    exact hx
  · exact h v'

section replica
variable (r : Replica C) (f : ReplicaState C → ReplicaState C) (e : Effect C)

@[simp] theorem withRs_rs : (r.withRs f).rs = f r.rs := rfl
@[simp] theorem withRs_liveState : (r.withRs f).liveState = r.liveState := rfl
@[simp] theorem withRs_valReqs : (r.withRs f).valReqs = r.valReqs := rfl
@[simp] theorem withRs_effects : (r.withRs f).effects = r.effects := rfl
@[simp] theorem emit_rs : (r.emit e).rs = r.rs := rfl
@[simp] theorem emit_effects : (r.emit e).effects = r.effects ++ [e] := rfl

end replica

/-- The leader depends on nothing that changes during a run. -/
theorem leaderFor_congr {rs rs' : ReplicaState C} (h : rs'.n = rs.n) (v : Nat) :
    rs'.leaderFor v = rs.leaderFor v := by
  simp only [ReplicaState.leaderFor, h]

theorem stashProposal_eq (view : Nat) (node : Node C) (justify : Option (QC C))
    (rs : ReplicaState C) :
    stashProposal view node justify rs =
      { rs.vdMut view (fun d => { d with proposal := d.proposal.or (some (node, justify)) }) with
        tree := rs.tree.insert (nodeHash node) node } := rfl

theorem stageQc_eq (p : Phase) (view : Nat) (qc : QC C) (rs : ReplicaState C) :
    stageQc p view qc rs =
      { rs.vdMut view (fun d => { d with seen := Function.update d.seen p true }) with
        staged := if (rs.viewData view).seen p then rs.staged
          else Function.update rs.staged p (Function.update (rs.staged p) view (some qc)) } := by
  unfold stageQc
  split
  · rename_i h
    have hd : { rs.viewData view with seen := Function.update (rs.viewData view).seen p true } =
        rs.viewData view := by
      rw [← (show (rs.viewData view).seen p = true from h), Function.update_eq_self]
    simp only [ReplicaState.vdMut, hd, Function.update_eq_self, vd_eq] at h ⊢
    simp [h]
  · rename_i h
    simp only [vd_eq] at h
    simp [h]

theorem receiveQc_eq (p : Phase) (view : Nat) (qc : QC C) (rs : ReplicaState C) :
    receiveQc p view qc rs =
      { stageQc p view qc rs with
        decidedNodes := if p = .commit ∧ (rs.viewData view).seen p = false
          then rs.decidedNodes.insert qc.nodeHash () else rs.decidedNodes } := by
  unfold receiveQc
  split
  · rename_i h
    simp only [vd_eq] at h
    simp [h, stageQc]
  · rename_i h
    simp only [vd_eq, Bool.not_eq_true] at h
    cases p <;> simp [h, stageQc_eq]

/-- Casting a vote touches the current view's data and the effects alone. -/
theorem castVote_eq (w : Wiring C) (p : Phase) (nh : C.Hash) (r : Replica C) :
    castVote w p nh r = { r with
      rs := r.rs.vdMut r.rs.view (fun d =>
        { d with
          votes := if r.rs.leaderFor r.rs.view = w.myId then Function.update d.votes p
            ((d.votes p).insert w.myId (nh, signVote w.sk (msgTypeOf p) r.rs.view nh)) else d.votes
          voted := Function.update d.voted p true })
      effects := r.effects ++
        .sign (voteDigest (msgTypeOf p) r.rs.view nh) (r.rs.validationResult nh) ::
          (if r.rs.leaderFor r.rs.view = w.myId then []
            else [.sendTo (r.rs.leaderFor r.rs.view) (.vote (msgTypeOf p) r.rs.view nh w.myId
              (signVote w.sk (msgTypeOf p) r.rs.view nh))]) } := by
  unfold castVote
  dsimp only
  split <;> simp [ReplicaState.vdMut, Replica.emit, Replica.withRs]

/-- Entering a view writes at most the node's own NEW-VIEW, under the old view. -/
theorem enterNewView_eq (w : Wiring C) (v : Nat) (r : Replica C) :
    enterNewView w v r = { r with
      rs := { r.rs.vdMut r.rs.view (fun d =>
        { d with newViewMsgs := if r.rs.leaderFor v = w.myId
          then d.newViewMsgs.insert w.myId r.rs.prepareQc else d.newViewMsgs }) with view := v }
      effects := r.effects ++
        ((if r.rs.leaderFor v = w.myId then []
          else [.sendTo (r.rs.leaderFor v) (.newView r.rs.view r.rs.prepareQc w.myId)]) ++
          [.armTimer v r.rs.timeoutIntervalMs]) } := by
  unfold enterNewView
  dsimp only
  split
  · simp [ReplicaState.vdMut, Replica.emit, Replica.withRs]
  · simp [ReplicaState.vdMut, Replica.emit, Replica.withRs]

section entering
variable (w : Wiring C) (v : Nat) (r : Replica C)

@[simp] theorem enterNewView_view : (enterNewView w v r).rs.view = v := by
  rw [enterNewView_eq]
@[simp] theorem enterNewView_tree : (enterNewView w v r).rs.tree = r.rs.tree := by
  rw [enterNewView_eq, vdMut_tree]
@[simp] theorem enterNewView_lastExecuted :
    (enterNewView w v r).rs.lastExecutedHeight = r.rs.lastExecutedHeight := by
  rw [enterNewView_eq, vdMut_lastExecuted]
@[simp] theorem enterNewView_decidedNodes :
    (enterNewView w v r).rs.decidedNodes = r.rs.decidedNodes := by
  rw [enterNewView_eq, vdMut_decidedNodes]
@[simp] theorem enterNewView_validationResult :
    (enterNewView w v r).rs.validationResult = r.rs.validationResult := by
  rw [enterNewView_eq, vdMut_validationResult]

end entering

theorem asI64_of_lt {h : UInt64} (hh : h.toNat < 2 ^ 63) : asI64 h = h.toNat :=
  BitVec.toInt_eq_toNat_of_lt (x := h.toBitVec) (by simpa using by omega)

/-- What executing a node leaves alone. -/
theorem applyNode_frame {nh : C.Hash} {node : Node C} {r r' : Replica C}
    (h : applyNode nh node r = .ok r') :
    r'.rs = { r.rs with
      postStateByNode := r'.rs.postStateByNode
      postRootByNode := r'.rs.postRootByNode
      lastExecutedHeight := asI64 node.height } ∧
      r'.valReqs = r.valReqs ∧ r'.effects = r.effects ++ [.executed node.height nh] := by
  unfold applyNode at h
  split at h
  · cases h
    exact ⟨rfl, rfl, rfl⟩
  · split at h
    · cases h
    · cases h
      exact ⟨rfl, rfl, rfl⟩

/-- What executing a node does to the ledger state and its cache. -/
theorem applyNode_states {nh : C.Hash} {node : Node C} {r r' : Replica C}
    (h : applyNode nh node r = .ok r') :
    r'.liveState = (r.rs.postStateByNode nh).getD r.liveState ∧
      r'.rs.postStateByNode = Function.update r.rs.postStateByNode nh none := by
  unfold applyNode at h
  split at h
  · cases h
    exact ⟨rfl, rfl⟩
  · split at h
    · cases h
    · cases h
      exact ⟨rfl, rfl⟩

/-- What executing a node with a proven pre-state root does to the roots. -/
theorem applyNode_roots {nh : C.Hash} {node : Node C} {r r' : Replica C} {pre : C.Hash}
    (h : applyNode nh node r = .ok r') (hpre : r.rs.preRootByNode nh = some pre) :
    r'.chainedRoot = (r.rs.postRootByNode nh).getD r.chainedRoot ∧
      r'.rs.postRootByNode = Function.update r.rs.postRootByNode nh none ∧
      (0 < node.height → pre = r.chainedRoot) := by
  unfold applyNode at h
  rw [hpre] at h
  dsimp only at h
  split at h
  · cases h
  · rename_i hbreak
    cases h
    refine ⟨rfl, rfl, ?_⟩
    intro hpos
    by_contra hne
    exact hbreak ⟨hpos, hne⟩

end ZkStf
