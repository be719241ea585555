import ZkStf.Proofs.Agreement

namespace ZkStf
open ZkStf.Basis
open ZkStf.Basis.Ballots
variable {C : Crypto}

def Replica.HasSent (r : Replica C) (msg : Wire C) : Prop := ∃ e ∈ r.effects, e.sent = some msg

/-- The node leaves its view without casting a vote. -/
structure Leaves (r r' : Replica C) : Prop where
  view : r.rs.view < r'.rs.view
  signs : ∀ d, r'.Signed d → r.Signed d
  armed : ∃ ms, .armTimer (r.rs.view + 1) ms ∈ r'.effects

/-- The messages a move sends. -/
inductive Sends (w : Wiring C) (r r' : Replica C) : Wire C → Prop
  | newView (leaves : Leaves r r') : Sends w r r' (.newView r.rs.view r.rs.prepareQc w.myId)
  | proposal (newViews : List (Nat × Option (QC C))) (leaf : Node C)
      (leader : r.rs.leaderFor r.rs.view = w.myId)
      (once : (r.rs.viewData r.rs.view).broadcastProposal = false)
      (read : newViews.Perm (r.rs.viewData (r.rs.view - 1)).newViewMsgs.entries)
      (enough : r.rs.quorum ≤ newViews.length)
      (parent : leaf.parent = expectedParent (highQc newViews))
      (sent : r' = sendProposal w leaf (highQc newViews) r) :
      Sends w r r' (.proposal r.rs.view leaf (highQc newViews) w.myId)
  | vote (p : Phase) (nh : C.Hash) (sig : C.Sig) :
      Sends w r r' (.vote (msgTypeOf p) r.rs.view nh w.myId sig)
  | phaseQc (p : Phase) (qc : QC C) :
      Sends w r r' (.phaseQc (announcedBy p) r.rs.view qc w.myId)

section
variable {keys : Nat → Option C.Key} {arrives : Wire C → Prop} {w : Wiring C}
  {r r' : Replica C} {msg : Wire C}

theorem Replica.HasSent.mono (h : r.HasSent msg) (hg : r.effects <+: r'.effects) :
    r'.HasSent msg := by
  obtain ⟨e, he, hm⟩ := h
  exact ⟨e, hg.subset he, hm⟩

/-- What was sent, once the effects have grown by `new`. -/
theorem hasSent_append {new : List (Effect C)} (he : r'.effects = r.effects ++ new)
    (h : r'.HasSent msg) : r.HasSent msg ∨ ∃ e ∈ new, e.sent = some msg := by
  obtain ⟨e, hmem, hm⟩ := h
  rw [he] at hmem
  rcases List.mem_append.mp hmem with hmem | hmem
  · exact Or.inl ⟨e, hmem, hm⟩
  · exact Or.inr ⟨e, hmem, hm⟩

theorem enter_sent {v : Nat} (h : (enterNewView w v r).HasSent msg) :
    r.HasSent msg ∨ msg = .newView r.rs.view r.rs.prepareQc w.myId := by
  rw [enterNewView_eq] at h
  rcases hasSent_append rfl h with h | ⟨e, he, hm⟩
  · exact Or.inl h
  · rcases List.mem_append.mp he with he | he
    · split at he
      · cases he
      · cases List.mem_singleton.mp he
        exact Or.inr (Option.some.inj hm).symm
    · cases List.mem_singleton.mp he
      cases hm

theorem enter_collected {v u sender : Nat} {justify : Option (QC C)}
    (h : ((enterNewView w v r).rs.viewData u).newViewMsgs.get? sender = some justify) :
    (r.rs.viewData u).newViewMsgs.get? sender = some justify ∨
      (sender = w.myId ∧ u = r.rs.view ∧ justify = r.rs.prepareQc) := by
  rw [enterNewView_eq] at h
  simp only [vdMut_viewData] at h
  split at h
  · subst u
    split at h
    · rw [EntryMap.get?_insert] at h
      split at h
      · exact Or.inr ⟨by assumption, rfl, (Option.some.inj h).symm⟩
      · exact Or.inl h
    · exact Or.inl h
  · exact Or.inl h

/-- Updating one view's data elsewhere than in the field `f` keeps that field. -/
theorem field_update (f : ViewData C → α) {g : Nat → ViewData C} {v : Nat} {d : ViewData C}
    (h : f d = f (g v)) (u : Nat) : f (Function.update g v d u) = f (g u) := by
  rw [Function.update_apply]
  split
  · subst u
    exact h
  · rfl

theorem enter_field (f : ViewData C → α) {v : Nat} (u : Nat)
    (h : ∀ d msgs, f { d with newViewMsgs := msgs } = f d) :
    f ((enterNewView w v r).rs.viewData u) = f (r.rs.viewData u) := by
  rw [enterNewView_eq]
  exact field_update f (h _ _) u

theorem enter_leaves (timeout : Nat) : Leaves r (enterNewView w (r.rs.view + 1)
    (r.withRs (fun rs => { rs with timeoutIntervalMs := timeout }))) := by
  rw [enterNewView_eq]
  refine ⟨Nat.lt_succ_self _, ?_, timeout, by simp⟩
  rintro d ⟨verdict, h⟩
  refine ⟨verdict, ?_⟩
  dsimp only at h
  split at h <;> simpa using h

theorem cast_sent {p : Phase} {nh : C.Hash} (h : (castVote w p nh r).HasSent msg) :
    r.HasSent msg ∨ ∃ sig, msg = .vote (msgTypeOf p) r.rs.view nh w.myId sig := by
  rw [castVote_eq] at h
  rcases hasSent_append rfl h with h | ⟨e, he, hm⟩
  · exact Or.inl h
  · rcases List.mem_cons.mp he with rfl | he
    · cases hm
    · split at he
      · cases he
      · cases List.mem_singleton.mp he
        exact Or.inr ⟨_, (Option.some.inj hm).symm⟩

theorem Move.sent_cases (hm : Move keys arrives w r r') (h : r'.HasSent msg) :
    r.HasSent msg ∨ Sends w r r' msg := by
  have hcast : ∀ p nh held, held.view = r.rs.view →
      (castVote w p nh { r with rs := held }).HasSent msg → r.HasSent msg ∨ Sends w r r' msg := by
    intro p nh held hv hs
    rcases cast_sent hs with hs | ⟨sig, rfl⟩
    · exact Or.inl hs
    · rw [hv]
      exact Or.inr (.vote p nh sig)
  cases hm with
  | enter timeout =>
    rcases enter_sent h with h | rfl
    · exact Or.inl h
    · exact Or.inr (.newView (enter_leaves timeout))
  | propose newViews leaf leader once read enough parent height inRange block =>
    rcases hasSent_append rfl h with h | ⟨e, he, hs⟩
    · exact Or.inl h
    · cases List.mem_singleton.mp he
      cases hs
      exact Or.inr (.proposal newViews leaf leader once read enough parent rfl)
  | prepare leaf => exact hcast .prepare (nodeHash leaf) r.rs rfl h
  | preCommit qc => exact hcast .preCommit qc.nodeHash (holdPrepare qc r.rs) rfl h
  | commit qc => exact hcast .commit qc.nodeHash (holdLock qc r.rs) rfl h
  | certify p ord qc =>
    rcases hasSent_append rfl h with h | ⟨e, he, hs⟩
    · exact Or.inl h
    · cases List.mem_singleton.mp he
      cases hs
      exact Or.inr (.phaseQc p qc)
  | execute decided nh node r' known path found next valid applied =>
    rcases hasSent_append (applyNode_frame applied).2.2 h with h | ⟨e, he, hs⟩
    · exact Or.inl h
    · cases List.mem_singleton.mp he
      cases hs
  | kick =>
    rcases hasSent_append rfl h with h | ⟨e, he, hs⟩
    · exact Or.inl h
    · cases List.mem_singleton.mp he
      cases hs
  | _ => exact Or.inl h

/-- A NEW-VIEW is kept as it arrived, or is the node's own on leaving its view. -/
theorem Move.collected_cases (hm : Move keys arrives w r r') {u sender : Nat}
    {justify : Option (QC C)}
    (h : (r'.rs.viewData u).newViewMsgs.get? sender = some justify) :
    (r.rs.viewData u).newViewMsgs.get? sender = some justify ∨
      arrives (.newView u justify sender) ∨
      (sender = w.myId ∧ u = r.rs.view ∧ justify = r.rs.prepareQc ∧ Leaves r r') := by
  have hsame : (r'.rs.viewData u).newViewMsgs = (r.rs.viewData u).newViewMsgs →
      (r.rs.viewData u).newViewMsgs.get? sender = some justify := fun he => he ▸ h
  cases hm with
  | collect view justify' sender' next arrived added leader sigs =>
    simp only [withRs_rs, recordNewView, vdMut_viewData] at h
    split at h
    · subst u
      rcases EntryMap.get?_insertNew h with h | ⟨rfl, rfl, _⟩
      · exact Or.inl h
      · exact Or.inr (Or.inl arrived)
    · exact Or.inl h
  | enter timeout =>
    rcases enter_collected h with h | ⟨hs, hu, hj⟩
    · exact Or.inl h
    · exact Or.inr (Or.inr ⟨hs, hu, hj, enter_leaves timeout⟩)
  | receive ty p view qc =>
    refine Or.inl (hsame ?_)
    rw [withRs_rs, receiveQc_eq, stageQc_eq]
    exact field_update ViewData.newViewMsgs (by rfl) u
  | propose =>
    refine Or.inl (hsame ?_)
    exact (field_update ViewData.newViewMsgs (by rfl) u).trans
      (field_update ViewData.newViewMsgs (by rfl) u)
  | certify p ord qc =>
    refine Or.inl (hsame ?_)
    rw [emit_rs, withRs_rs, stageQc_eq]
    exact (field_update ViewData.newViewMsgs (by rfl) u).trans
      (field_update ViewData.newViewMsgs (by rfl) u)
  | prepare =>
    refine Or.inl (hsame ?_)
    rw [castVote_eq]
    exact field_update ViewData.newViewMsgs (by rfl) u
  | preCommit =>
    refine Or.inl (hsame ?_)
    rw [castVote_eq]
    exact field_update ViewData.newViewMsgs (by rfl) u
  | commit =>
    refine Or.inl (hsame ?_)
    rw [castVote_eq]
    exact field_update ViewData.newViewMsgs (by rfl) u
  | stash => exact Or.inl (hsame (field_update ViewData.newViewMsgs (by rfl) u))
  | count => exact Or.inl (hsame (field_update ViewData.newViewMsgs (by rfl) u))
  | skip => exact Or.inl (hsame (field_update ViewData.newViewMsgs (by rfl) u))
  | execute decided nh node r' known path found next valid applied =>
    exact Or.inl (hsame (by rw [(applyNode_frame applied).1]))
  | _ => exact Or.inl h

def ViewData.proposed (d : ViewData C) : Option (Node C × Option (QC C)) × Bool :=
  (d.proposal, d.broadcastProposal)

theorem Move.proposed_cases (hm : Move keys arrives w r r') :
    (∀ u, (r'.rs.viewData u).proposed = (r.rs.viewData u).proposed) ∨
      (∃ view node justify, arrives (.proposal view node justify (r.rs.leaderFor view)) ∧
        r' = r.withRs (stashProposal view node justify)) ∨
      ∃ leaf high, r.rs.leaderFor r.rs.view = w.myId ∧ r' = sendProposal w leaf high r := by
  cases hm with
  | stash view node justify sender arrived leader sigs parent =>
    exact Or.inr (Or.inl ⟨view, node, justify, leader ▸ arrived, rfl⟩)
  | propose newViews leaf leader =>
    exact Or.inr (Or.inr ⟨leaf, highQc newViews, leader, rfl⟩)
  | receive ty p view qc =>
    refine Or.inl (fun u => ?_)
    rw [withRs_rs, receiveQc_eq, stageQc_eq]
    exact field_update ViewData.proposed (by rfl) u
  | certify p ord qc =>
    refine Or.inl (fun u => ?_)
    rw [emit_rs, withRs_rs, stageQc_eq]
    exact (field_update ViewData.proposed (by rfl) u).trans
      (field_update ViewData.proposed (by rfl) u)
  | enter => exact Or.inl (fun u => enter_field ViewData.proposed u (fun _ _ => rfl))
  | prepare =>
    rw [castVote_eq]
    exact Or.inl (fun u => field_update ViewData.proposed (by rfl) u)
  | preCommit =>
    rw [castVote_eq]
    exact Or.inl (fun u => field_update ViewData.proposed (by rfl) u)
  | commit =>
    rw [castVote_eq]
    exact Or.inl (fun u => field_update ViewData.proposed (by rfl) u)
  | count => exact Or.inl (fun u => field_update ViewData.proposed (by rfl) u)
  | collect => exact Or.inl (fun u => field_update ViewData.proposed (by rfl) u)
  | skip => exact Or.inl (fun u => field_update ViewData.proposed (by rfl) u)
  | execute decided nh node r' known path found next valid applied =>
    rw [(applyNode_frame applied).1]
    exact Or.inl (fun _ => rfl)
  | _ => exact Or.inl (fun _ => rfl)

theorem sendProposal_marks (leaf : Node C) (high : Option (QC C)) :
    ((sendProposal w leaf high r).rs.viewData r.rs.view).broadcastProposal = true := by
  simp [sendProposal, vdMut_viewData]

theorem sendProposal_inj {leaf leaf' : Node C} {high high' : Option (QC C)}
    (h : sendProposal w leaf high r = sendProposal w leaf' high' r) : leaf = leaf' := by
  have he := congrArg Replica.effects h
  simp only [sendProposal, emit_effects, withRs_effects] at he
  cases List.append_cancel_left he
  rfl

theorem Move.broadcast_mono (hm : Move keys arrives w r r')
    (h : (r.rs.viewData u).broadcastProposal = true) :
    (r'.rs.viewData u).broadcastProposal = true := by
  rcases hm.proposed_cases with hsame | ⟨view, node, justify, _, rfl⟩ | ⟨leaf, high, _, rfl⟩
  · rw [← h]
    exact congrArg Prod.snd (hsame u)
  · rw [← h]
    exact field_update ViewData.broadcastProposal (by rfl) u
  · simp only [sendProposal, emit_rs, withRs_rs, vdMut_viewData]
    split
    · rfl
    · rw [← h]
      exact field_update ViewData.broadcastProposal (by rfl) u

theorem stash_proposal {view : Nat} {node : Node C} {justify : Option (QC C)}
    {rs : ReplicaState C} {leaf : Node C} {high : Option (QC C)}
    (h : ((stashProposal view node justify rs).viewData u).proposal = some (leaf, high)) :
    (rs.viewData u).proposal = some (leaf, high) ∨ u = view ∧ leaf = node ∧ high = justify := by
  simp only [stashProposal_eq, vdMut_viewData] at h
  split at h
  · subst u
    cases hd : (rs.viewData view).proposal with
    | none =>
      simp only [hd, Option.none_or] at h
      cases h
      exact Or.inr ⟨rfl, rfl, rfl⟩
    | some old =>
      simp only [hd, Option.some_or] at h
      exact Or.inl h
  · exact Or.inl h

/-- A stored proposal came from the leader of its view. -/
theorem Move.stored_cases (hm : Move keys arrives w r r') {leaf : Node C}
    {high : Option (QC C)} (h : (r'.rs.viewData u).proposal = some (leaf, high)) :
    (r.rs.viewData u).proposal = some (leaf, high) ∨
      arrives (.proposal u leaf high (r.rs.leaderFor u)) ∨
      (r.rs.leaderFor u = w.myId ∧ r'.HasSent (.proposal u leaf high w.myId)) := by
  rcases hm.proposed_cases with hsame | ⟨view, node, justify, ha, rfl⟩ | ⟨leaf', high', hl, rfl⟩
  · exact Or.inl ((congrArg Prod.fst (hsame u)).symm.trans h)
  · rcases stash_proposal h with h | ⟨rfl, rfl, rfl⟩
    · exact Or.inl h
    · exact Or.inr (Or.inl ha)
  · have hs : ((sendProposal w leaf' high' r).rs.viewData u).proposal =
        ((stashProposal r.rs.view leaf' high' r.rs).viewData u).proposal :=
      field_update ViewData.proposal (by rfl) u
    rcases stash_proposal (hs ▸ h) with h | ⟨rfl, rfl, rfl⟩
    · exact Or.inl h
    · exact Or.inr (Or.inr ⟨hl, .broadcast _, by simp [sendProposal], rfl⟩)

end
end ZkStf
