import ZkStf.Proofs.Outbox

namespace ZkStf
open ZkStf.Basis
open ZkStf.Basis.Ballots (Phase)
variable {C : Crypto}

/-- The marks a node leaves on what it has done in a view. -/
def ViewData.flags (d : ViewData C) : (Phase → Bool) × (Phase → Bool) × Bool :=
  (d.voted, d.broadcast, d.broadcastProposal)

/-- A mark stands for a message: it went out to the node that is to have it, or
was kept by that node itself. -/
structure Outspoken (w : Wiring C) (r : Replica C) : Prop where
  proposed : ∀ v, (r.rs.viewData v).broadcastProposal = true →
    (∃ leaf high, .broadcast (.proposal v leaf high w.myId) ∈ r.effects) ∧
      (r.rs.viewData v).proposal.isSome
  announced : ∀ p v, (r.rs.viewData v).broadcast p = true →
    (∃ qc, .broadcast (.phaseQc (announcedBy p) v qc w.myId) ∈ r.effects) ∧
      (r.rs.viewData v).seen p = true
  cast : ∀ p v, p ≠ .prepare → (r.rs.viewData v).voted p = true →
    ∃ nh, r.Signed ⟨msgTypeOf p, v, nh⟩
  signed : ∀ p v nh, r.Signed ⟨msgTypeOf p, v, nh⟩ →
    (r.rs.leaderFor v = w.myId → (((r.rs.viewData v).votes p).get? w.myId).isSome) ∧
    (r.rs.leaderFor v ≠ w.myId → ∃ sig,
      .sendTo (r.rs.leaderFor v) (.vote (msgTypeOf p) v nh w.myId sig) ∈ r.effects)
  reported : ∀ v < r.rs.view,
    (r.rs.leaderFor (v + 1) = w.myId → ((r.rs.viewData v).newViewMsgs.get? w.myId).isSome) ∧
    (r.rs.leaderFor (v + 1) ≠ w.myId → ∃ justify,
      .sendTo (r.rs.leaderFor (v + 1)) (.newView v justify w.myId) ∈ r.effects)
  timed : ∀ v, 1 ≤ v → v ≤ r.rs.view → ∃ ms, .armTimer v ms ∈ r.effects
  stored : ∀ v leaf high, (r.rs.viewData v).proposal = some (leaf, high) →
    (r.rs.tree.get? (nodeHash leaf)).isSome

section
variable {keys : Nat → Option C.Key} {arrives : Wire C → Prop} {expires : Prop} {w : Wiring C}
  {n : Nat} {r r' : Replica C}

/-- The moves that leave a mark. -/
theorem Move.flag_cases (hm : Move keys arrives w r r') :
    (∀ v, (r'.rs.viewData v).flags = (r.rs.viewData v).flags) ∨
    (∃ leaf high, r' = sendProposal w leaf high r) ∨ r' = skipPrepare r ∨
    (∃ p nh held, Casts r p nh held ∧ r' = castVote w p nh { r with rs := held }) ∨
    ∃ p qc, r' = (r.withRs (fun rs => stageQc p rs.view qc (rs.vdMut rs.view (fun d =>
      { d with broadcast := Function.update d.broadcast p true })))).emit
        (.broadcast (.phaseQc (announcedBy p) r.rs.view qc w.myId)) := by
  cases hm with
  | propose newViews leaf => exact Or.inr (Or.inl ⟨leaf, highQc newViews, rfl⟩)
  | skip => exact Or.inr (Or.inr (Or.inl rfl))
  | prepare leaf high proposal once valid safe =>
    exact Or.inr (Or.inr (Or.inr (Or.inl ⟨_, _, _, .prepare leaf high proposal valid safe, rfl⟩)))
  | preCommit qc seen once staged =>
    exact Or.inr (Or.inr (Or.inr (Or.inl ⟨_, _, _, .preCommit qc staged, rfl⟩)))
  | commit qc seen once staged =>
    exact Or.inr (Or.inr (Or.inr (Or.inl ⟨_, _, _, .commit qc staged, rfl⟩)))
  | certify p ord qc => exact Or.inr (Or.inr (Or.inr (Or.inr ⟨p, qc, rfl⟩)))
  | receive ty p view qc =>
    refine Or.inl (fun v => ?_)
    rw [withRs_rs, receiveQc_eq, stageQc_eq]
    exact field_update ViewData.flags (by rfl) v
  | enter => exact Or.inl (fun v => enter_field ViewData.flags v (fun _ _ => rfl))
  | stash => exact Or.inl (fun v => field_update ViewData.flags (by rfl) v)
  | count => exact Or.inl (fun v => field_update ViewData.flags (by rfl) v)
  | collect => exact Or.inl (fun v => field_update ViewData.flags (by rfl) v)
  | execute decided nh node r' known path found next valid applied =>
    rw [(applyNode_frame applied).1]
    exact Or.inl (fun _ => rfl)
  | _ => exact Or.inl (fun _ => rfl)

theorem Casts.same {p : Phase} {nh : C.Hash} {held : ReplicaState C} (h : Casts r p nh held) :
    held.n = r.rs.n ∧ held.view = r.rs.view ∧ held.viewData = r.rs.viewData := by
  cases h <;> exact ⟨rfl, rfl, rfl⟩

theorem Move.proposed_mark (hm : Move keys arrives w r r') {v : Nat}
    (h : (r'.rs.viewData v).broadcastProposal = true) :
    (r.rs.viewData v).broadcastProposal = true ∨
      (∃ leaf high, .broadcast (.proposal v leaf high w.myId) ∈ r'.effects) ∧
        (r'.rs.viewData v).proposal.isSome := by
  rcases hm.proposed_cases with hsame | ⟨view, node, justify, _, rfl⟩ | ⟨leaf, high, _, rfl⟩
  · exact Or.inl ((congrArg Prod.snd (hsame v)).symm.trans h)
  · refine Or.inl (Eq.trans (Eq.symm ?_) h)
    exact field_update ViewData.broadcastProposal (by rfl) v
  · rw [sendProposal_viewData] at h ⊢
    by_cases hv : v = r.rs.view
    · subst v
      refine Or.inr ⟨⟨leaf, high, by simp [sendProposal]⟩, ?_⟩
      rw [if_pos rfl]
      cases (r.rs.viewData r.rs.view).proposal <;> rfl
    · rw [if_neg hv] at h
      exact Or.inl h

theorem Move.announced_mark (hm : Move keys arrives w r r') {p : Phase} {v : Nat}
    (h : (r'.rs.viewData v).broadcast p = true) :
    (r.rs.viewData v).broadcast p = true ∨
      (∃ qc, .broadcast (.phaseQc (announcedBy p) v qc w.myId) ∈ r'.effects) ∧
        (r'.rs.viewData v).seen p = true := by
  have hflag : (∀ v, (r'.rs.viewData v).broadcast = (r.rs.viewData v).broadcast) →
      (r.rs.viewData v).broadcast p = true := fun hsame => by rw [← hsame]; exact h
  rcases hm.flag_cases with hsame | ⟨leaf, high, rfl⟩ | rfl | ⟨q, nh, held, hc, rfl⟩ | ⟨q, qc, rfl⟩
  · exact Or.inl (hflag (fun v => congrArg (·.2.1) (hsame v)))
  · refine Or.inl (hflag (fun v => ?_))
    rw [sendProposal_viewData]
    split
    · rename_i hv
      rw [hv]
    · rfl
  · exact Or.inl (hflag (fun v => field_update ViewData.broadcast (by rfl) v))
  · refine Or.inl (hflag (fun v => ?_))
    rw [castVote_eq, ← hc.same.2.2]
    exact field_update ViewData.broadcast (by rfl) v
  · rw [certify_eq] at h ⊢
    simp only [vdMut_viewData] at h ⊢
    by_cases hv : v = r.rs.view
    · subst v
      rw [if_pos rfl] at h ⊢
      by_cases hp : p = q
      · subst p
        exact Or.inr ⟨⟨qc, by simp⟩, Function.update_self ..⟩
      · dsimp only at h
        rw [Function.update_of_ne hp] at h
        exact Or.inl h
    · rw [if_neg hv] at h
      exact Or.inl h

theorem Move.voted_mark (hm : Move keys arrives w r r') {p : Phase} {v : Nat} (hp : p ≠ .prepare)
    (h : (r'.rs.viewData v).voted p = true) :
    (r.rs.viewData v).voted p = true ∨ ∃ nh, r'.Signed ⟨msgTypeOf p, v, nh⟩ := by
  have hflag : (∀ v, (r'.rs.viewData v).voted = (r.rs.viewData v).voted) →
      (r.rs.viewData v).voted p = true := fun hsame => by rw [← hsame]; exact h
  rcases hm.flag_cases with hsame | ⟨leaf, high, rfl⟩ | rfl | ⟨q, nh, held, hc, rfl⟩ | ⟨q, qc, rfl⟩
  · exact Or.inl (hflag (fun v => congrArg Prod.fst (hsame v)))
  · refine Or.inl (hflag (fun v => ?_))
    rw [sendProposal_viewData]
    split
    · rename_i hv
      rw [hv]
    · rfl
  · simp only [skipPrepare, withRs_rs, vdMut_viewData] at h
    split at h
    · subst v
      dsimp only at h
      rw [Function.update_of_ne hp] at h
      exact Or.inl h
    · exact Or.inl h
  · obtain ⟨_, hview, hdata⟩ := hc.same
    by_cases hnew : p = q ∧ v = r.rs.view
    · obtain ⟨rfl, rfl⟩ := hnew
      refine Or.inr ⟨nh, castVote_signed.mpr (Or.inr ?_)⟩
      rw [hview]
    · rw [castVote_eq] at h
      simp only [vdMut_viewData, hview, hdata] at h
      split at h
      · subst v
        dsimp only at h
        rw [Function.update_of_ne (fun he => hnew ⟨he, rfl⟩)] at h
        exact Or.inl h
      · exact Or.inl h
  · refine Or.inl (hflag (fun v => ?_))
    rw [certify_eq]
    exact field_update ViewData.voted (by rfl) v

/-- A vote goes to the leader, or into the leader's own bucket. -/
theorem Move.signed_mark (hm : Move keys arrives w r r') {p : Phase} {v : Nat} {nh : C.Hash}
    (h : r'.Signed ⟨msgTypeOf p, v, nh⟩) : r.Signed ⟨msgTypeOf p, v, nh⟩ ∨
      (r.rs.leaderFor v = w.myId → (((r'.rs.viewData v).votes p).get? w.myId).isSome) ∧
      (r.rs.leaderFor v ≠ w.myId → ∃ sig,
        .sendTo (r.rs.leaderFor v) (.vote (msgTypeOf p) v nh w.myId sig) ∈ r'.effects) := by
  rcases hm.casts with hq | ⟨q, x, held, hc, _, rfl⟩
  · obtain ⟨verdict, hs⟩ := h
    exact Or.inl ⟨verdict, hq.signs _ _ hs⟩
  obtain ⟨hn, hview, hdata⟩ := hc.same
  rcases castVote_signed.mp h with h | h
  · exact Or.inl h
  · simp only [VoteDigest.mk.injEq] at h
    obtain ⟨hty, hv, rfl⟩ := h
    obtain rfl := msgTypeOf_inj hty
    rw [hview] at hv
    subst v
    have hlead : held.leaderFor r.rs.view = r.rs.leaderFor r.rs.view := leaderFor_congr hn _
    refine Or.inr ⟨?_, ?_⟩
    · intro hme
      rw [castVote_eq]
      simp only [vdMut_viewData, hview, hlead, hme, ↓reduceIte, Function.update_self]
      exact EntryMap.isSome_insert.mpr (Or.inl rfl)
    · intro hother
      refine ⟨signVote w.sk (msgTypeOf p) r.rs.view nh, ?_⟩
      rw [castVote_eq]
      simp [hview, hlead, hother]

/-- A NEW-VIEW goes to the leader of the next view, or into its own collection. -/
theorem enter_reports (v : Nat) (r : Replica C) :
    (r.rs.leaderFor v = w.myId →
      (((enterNewView w v r).rs.viewData r.rs.view).newViewMsgs.get? w.myId).isSome) ∧
    (r.rs.leaderFor v ≠ w.myId →
      .sendTo (r.rs.leaderFor v) (.newView r.rs.view r.rs.prepareQc w.myId) ∈
        (enterNewView w v r).effects) := by
  rw [enterNewView_eq]
  refine ⟨fun hme => ?_, fun hother => by simp [hother]⟩
  simp only [vdMut_viewData, hme, ↓reduceIte]
  exact EntryMap.isSome_insert.mpr (Or.inl rfl)

theorem Move.reported_mark (hm : Move keys arrives w r r') {v : Nat} (h : v < r'.rs.view) :
    v < r.rs.view ∨
      (r.rs.leaderFor (v + 1) = w.myId → ((r'.rs.viewData v).newViewMsgs.get? w.myId).isSome) ∧
      (r.rs.leaderFor (v + 1) ≠ w.myId → ∃ justify,
        .sendTo (r.rs.leaderFor (v + 1)) (.newView v justify w.myId) ∈ r'.effects) := by
  by_cases hold : v < r.rs.view
  · exact Or.inl hold
  obtain hsame | ⟨timeout, rfl⟩ := hm.view_cases
  · omega
  rw [enterNewView_view] at h
  obtain rfl : v = r.rs.view := by omega
  obtain ⟨hown, hsent⟩ := enter_reports (w := w) (r.rs.view + 1)
    (r.withRs (fun rs => { rs with timeoutIntervalMs := timeout }))
  exact Or.inr ⟨hown, fun hother => ⟨_, hsent hother⟩⟩

theorem Move.timed_mark (hm : Move keys arrives w r r') {v : Nat} (h : v ≤ r'.rs.view) :
    v ≤ r.rs.view ∨ ∃ ms, .armTimer v ms ∈ r'.effects := by
  by_cases hold : v ≤ r.rs.view
  · exact Or.inl hold
  obtain hsame | ⟨timeout, rfl⟩ := hm.view_cases
  · omega
  rw [enterNewView_view] at h
  obtain rfl : v = r.rs.view + 1 := by omega
  refine Or.inr ⟨timeout, ?_⟩
  rw [enterNewView_eq]
  simp

theorem Move.tree_keeps (hm : Move keys arrives w r r') {h : C.Hash}
    (hget : (r.rs.tree.get? h).isSome) : (r'.rs.tree.get? h).isSome := by
  have hsame : r'.rs.tree = r.rs.tree → (r'.rs.tree.get? h).isSome := fun he => he ▸ hget
  cases hm with
  | stash => exact EntryMap.isSome_insert.mpr (Or.inr hget)
  | propose => exact EntryMap.isSome_insert.mpr (Or.inr hget)
  | receive ty p view qc =>
    exact hsame (by rw [withRs_rs, receiveQc_eq, stageQc_eq]; rfl)
  | enter => exact hsame (enterNewView_tree ..)
  | prepare => exact hsame (by rw [castVote_eq]; rfl)
  | preCommit => exact hsame (by rw [castVote_eq]; rfl)
  | commit => exact hsame (by rw [castVote_eq]; rfl)
  | certify p ord qc => exact hsame (by rw [certify_eq]; rfl)
  | execute decided nh node r' known path found next valid applied =>
    exact hsame (by rw [(applyNode_frame applied).1])
  | _ => exact hget

theorem Move.stored_mark (hm : Move keys arrives w r r') {v : Nat} {leaf : Node C}
    {high : Option (QC C)} (h : (r'.rs.viewData v).proposal = some (leaf, high)) :
    (r.rs.viewData v).proposal = some (leaf, high) ∨
      (r'.rs.tree.get? (nodeHash leaf)).isSome := by
  rcases hm.proposed_cases with hsame | ⟨view, node, justify, _, rfl⟩ | ⟨leaf', high', _, rfl⟩
  · exact Or.inl ((congrArg Prod.fst (hsame v)).symm.trans h)
  · rcases stash_proposal h with h | ⟨_, rfl, _⟩
    · exact Or.inl h
    · exact Or.inr (EntryMap.isSome_insert.mpr (Or.inl rfl))
  · have hkept : ((stashProposal r.rs.view leaf' high' r.rs).viewData v).proposal =
        some (leaf, high) := by
      rw [← h]
      exact (field_update ViewData.proposal (by rfl) v).symm
    rcases stash_proposal hkept with h | ⟨_, rfl, _⟩
    · exact Or.inl h
    · exact Or.inr (EntryMap.isSome_insert.mpr (Or.inl rfl))

theorem Outspoken.move (h : Outspoken w r) (hm : Move keys arrives w r r') : Outspoken w r' := by
  have hgrow : ∀ {e}, e ∈ r.effects → e ∈ r'.effects := fun he => hm.effects_grow.subset he
  have hlead : ∀ v, r'.rs.leaderFor v = r.rs.leaderFor v := leaderFor_congr hm.size
  refine ⟨?_, ?_, ?_, ?_, ?_, ?_, ?_⟩
  · intro v hv
    rcases hm.proposed_mark hv with hv | hnew
    · obtain ⟨⟨leaf, high, hsent⟩, hsome⟩ := h.proposed v hv
      obtain ⟨x, hx⟩ := Option.isSome_iff_exists.mp hsome
      exact ⟨⟨leaf, high, hgrow hsent⟩, by rw [(hm.grows v).proposal x hx]; rfl⟩
    · exact hnew
  · intro p v hv
    rcases hm.announced_mark hv with hv | hnew
    · obtain ⟨⟨qc, hsent⟩, hseen⟩ := h.announced p v hv
      exact ⟨⟨qc, hgrow hsent⟩, (hm.grows v).seen p hseen⟩
    · exact hnew
  · intro p v hp hv
    rcases hm.voted_mark hp hv with hv | hnew
    · obtain ⟨nh, hs⟩ := h.cast p v hp hv
      exact ⟨nh, hm.signed_grow hs⟩
    · exact hnew
  · intro p v nh hs
    rw [hlead]
    rcases hm.signed_mark hs with hs | hnew
    · obtain ⟨hown, hsent⟩ := h.signed p v nh hs
      exact ⟨fun hme => (hm.grows v).votes p _ (hown hme),
        fun hother => (hsent hother).imp fun _ he => hgrow he⟩
    · exact hnew
  · intro v hv
    rw [hlead]
    rcases hm.reported_mark hv with hv | hnew
    · obtain ⟨hown, hsent⟩ := h.reported v hv
      exact ⟨fun hme => (hm.grows v).newViews _ (hown hme),
        fun hother => (hsent hother).imp fun _ he => hgrow he⟩
    · exact hnew
  · intro v hone hv
    rcases hm.timed_mark hv with hv | hnew
    · exact (h.timed v hone hv).imp fun _ he => hgrow he
    · exact hnew
  · intro v leaf high hprop
    rcases hm.stored_mark hprop with hprop | hnew
    · exact hm.tree_keeps (h.stored v leaf high hprop)
    · exact hnew

theorem Outspoken.boot : Outspoken w (bootReplica w n) where
  proposed _ hv := nomatch hv
  announced _ _ hv := nomatch hv
  cast _ _ _ hv := nomatch hv
  signed _ _ _ hs := by
    obtain ⟨_, hs⟩ := hs
    cases hs
  reported _ hv := absurd hv (Nat.not_lt_zero _)
  timed _ hone hv := absurd (hone.trans hv) (Nat.not_succ_le_zero 0)
  stored _ _ _ hprop := nomatch hprop

theorem reach_outspoken {m : Machine C} (hr : Machine.Reach w n m) : Outspoken w m.replica := by
  have hstart : Move (fun _ => none) (fun _ => True) w (bootReplica w n) _ := start_move
  exact reach_invariant (Outspoken.boot.move hstart) (fun _ _ _ h hm => h.move hm) hr

end
end ZkStf
