import ZkStf.Proofs.Identity
import ZkStf.Proofs.Pacemaker
import ZkStf.Proofs.Resting

namespace ZkStf
open ZkStf.Basis
open ZkStf.Basis.Ballots (Phase)
open Relation (ReflTransGen)
variable {C : Crypto}

/-- The proposal of the view is one that a replica drops. -/
def Unfit (r : Replica C) : Prop :=
  ∃ leaf high, (r.rs.viewData r.rs.view).proposal = some (leaf, high) ∧
    (r.rs.validationResult (nodeHash leaf) = some false ∨
      safeNode leaf high r.rs.lockedQc r.rs.tree = false)

/-- Why a node leaves its view: the timer of an undecided view went off, or the
view's decision is recorded. Each sets the pace of the timers to come. -/
inductive Departs (expires : Prop) (w : Wiring C) (r r' : Replica C) : Prop
  | expired (allowed : expires) (undecided : (r.rs.viewData r.rs.view).seen .commit = false)
      (pace : r'.rs.timeoutIntervalMs = min (r.rs.timeoutIntervalMs * 2) (2 ^ 64 - 1))
  | decided (qc : QC C) (seen : (r.rs.viewData r.rs.view).seen .commit = true)
      (staged : r.rs.staged .commit r.rs.view = some qc)
      (known : (r.rs.decidedNodes.get? qc.nodeHash).isSome)
      (pace : r'.rs.timeoutIntervalMs = w.timeoutBaseMs)

/-- A move with the conditions the code takes it under that the move itself does
not tell: certificates are announced once, only unfit leaves are dropped, and a
view is left for a reason. `expires` tells whether timers go off. -/
structure Deed (keys : Nat → Option C.Key) (arrives : Wire C → Prop) (expires : Prop)
    (w : Wiring C) (r r' : Replica C) : Prop where
  move : Move keys arrives w r r'
  announced : ∀ p qc, r'.effects =
    r.effects ++ [.broadcast (.phaseQc (announcedBy p) r.rs.view qc w.myId)] →
      (r.rs.viewData r.rs.view).broadcast p = false
  dropped : ∀ u, (r'.rs.viewData u).voted .prepare = true →
    (r.rs.viewData u).voted .prepare = true ∨ (∃ nh, r'.Signed ⟨.prepare, u, nh⟩) ∨
      (u = r.rs.view ∧ Unfit r)
  paced : r'.rs.view = r.rs.view → r'.rs.timeoutIntervalMs = r.rs.timeoutIntervalMs
  left : r'.rs.view ≠ r.rs.view → Departs expires w r r'

abbrev Deeds (keys : Nat → Option C.Key) (arrives : Wire C → Prop) (expires : Prop)
    (w : Wiring C) : Replica C → Replica C → Prop :=
  ReflTransGen (Deed keys arrives expires w)

section
variable {keys : Nat → Option C.Key} {arrives : Wire C → Prop} {expires : Prop} {w : Wiring C}
  {n : Nat} {r r' : Replica C} {ord : Order} {p : Phase}

/-- A move inside the view that announces nothing and drops nothing. -/
theorem Deed.plain (hm : Move keys arrives w r r') (hview : r'.rs.view = r.rs.view)
    (htime : r'.rs.timeoutIntervalMs = r.rs.timeoutIntervalMs)
    (hvoted : ∀ u, (r'.rs.viewData u).voted .prepare = true →
      (r.rs.viewData u).voted .prepare = true ∨ ∃ nh, r'.Signed ⟨.prepare, u, nh⟩)
    (heff : ∀ msg, r'.effects = r.effects ++ [.broadcast msg] →
      ∀ ty v qc sender, msg ≠ .phaseQc ty v qc sender) :
    Deed keys arrives expires w r r' where
  move := hm
  announced _ _ he := absurd rfl (heff _ he _ _ _ _)
  dropped u hu := (hvoted u hu).imp_right Or.inl
  paced _ := htime
  left hne := absurd hview hne

/-- A move that writes the state alone. -/
theorem Deed.silent {f : ReplicaState C → ReplicaState C}
    (hm : Move keys arrives w r (r.withRs f)) (hview : (f r.rs).view = r.rs.view)
    (htime : (f r.rs).timeoutIntervalMs = r.rs.timeoutIntervalMs)
    (hvoted : ∀ u, ((f r.rs).viewData u).voted = (r.rs.viewData u).voted) :
    Deed keys arrives expires w r (r.withRs f) := by
  apply Deed.plain hm hview htime
  · intro u hu
    rw [withRs_rs, hvoted] at hu
    exact Or.inl hu
  · intro msg he
    simp at he

theorem Chore.deed (h : Chore w r r') : Deed keys arrives expires w r r' := by
  have hback := h.backstage
  apply Deed.plain h.move hback.view (by rw [hback.rs])
  · intro u hu
    rw [hback.viewData] at hu
    exact Or.inl hu
  · intro msg he
    obtain ⟨new, heff, hnew⟩ := hback.effects
    rw [heff] at he
    have hlast := hnew (.broadcast msg) (by rw [List.append_cancel_left he]; simp)
    rcases hlast with ⟨_, _, he⟩ | ⟨_, _, he⟩ <;> cases he

theorem chores_deeds (h : Chores w r r') : Deeds keys arrives expires w r r' :=
  ReflTransGen.mono (fun _ _ hc => hc.deed) _ _ h

theorem castVote_deed (held : ReplicaState C) {nh : C.Hash}
    (hm : Move keys arrives w r (castVote w p nh { r with rs := held }))
    (hview : held.view = r.rs.view) (htime : held.timeoutIntervalMs = r.rs.timeoutIntervalMs)
    (hdata : held.viewData = r.rs.viewData) :
    Deed keys arrives expires w r (castVote w p nh { r with rs := held }) := by
  apply Deed.plain hm
  · rw [castVote_eq]
    exact hview
  · rw [castVote_eq]
    exact htime
  · intro u hu
    by_cases hsigned : p = .prepare ∧ u = r.rs.view
    · obtain ⟨rfl, rfl⟩ := hsigned
      refine Or.inr ⟨nh, castVote_signed.mpr (Or.inr ?_)⟩
      simp [hview, msgTypeOf]
    · left
      rw [castVote_eq] at hu
      simp only [vdMut_viewData, hview, hdata] at hu
      split at hu
      · subst u
        have hp : Phase.prepare ≠ p := fun hp => hsigned ⟨hp.symm, rfl⟩
        dsimp only at hu
        rwa [Function.update_of_ne hp] at hu
      · exact hu
  · intro msg he
    rw [castVote_eq] at he
    have hcons := List.append_cancel_left he
    cases hcons

theorem leader_prepare_deeds (h : leaderPrepare w ord r = .ok r') :
    Deeds keys arrives expires w r r' := by
  rcases leader_prepare_cases h with ⟨rfl, _⟩ | ⟨newViews, leaf, block, hread, hleader, honce,
    henough, hparent, hheight, hrange, hblock, hcmd, hkick⟩
  · exact .refl
  · have hperm := ord.perm .newViewMsgs (r.rs.viewData (r.rs.view - 1)).newViewMsgs.entries
    rw [← hread] at hperm
    refine .head (Deed.plain (.propose newViews leaf hleader honce hperm henough hparent hheight
      hrange ⟨block, hblock, hcmd⟩) rfl rfl ?_ ?_) (chores_deeds (kick_chores hkick))
    · intro u hu
      rw [sendProposal_viewData] at hu
      split at hu
      · subst u
        exact Or.inl hu
      · exact Or.inl hu
    · intro msg he
      have hcons := List.append_cancel_left he
      cases hcons
      simp

/-- A replica votes on a leaf it finds fit and drops any other. -/
theorem replica_prepare_deeds (h : replicaPrepare w r = .ok r') :
    Deeds keys arrives expires w r r' := by
  unfold replicaPrepare at h
  dsimp only at h
  split at h
  · cases h; exact .refl
  rename_i leaf high hprop
  split at h
  · cases h; exact .refl
  rename_i honce
  have hskip : (r.rs.validationResult (nodeHash leaf) = some false ∨
      safeNode leaf high r.rs.lockedQc r.rs.tree = false) →
      Deed keys arrives expires w r (skipPrepare r) := by
    intro hunfit
    refine ⟨.skip, ?_, ?_, fun _ => rfl, fun hne => absurd rfl hne⟩
    · intro p qc he
      simp [skipPrepare] at he
    · intro u hu
      by_cases hv : u = r.rs.view
      · exact Or.inr (Or.inr ⟨hv, leaf, high, hprop, hunfit⟩)
      · simp only [skipPrepare, withRs_rs, vdMut_viewData, if_neg hv] at hu
        exact Or.inl hu
  split at h
  · cases h; exact .refl
  · rename_i hbad
    cases h
    exact .single (hskip (Or.inl hbad))
  · rename_i hvalid
    split at h
    · rename_i hunsafe
      cases h
      exact .single (hskip (Or.inr (by simpa using hunsafe)))
    · rename_i hsafe
      cases h
      exact .single (castVote_deed r.rs (.prepare leaf high hprop (by simpa using honce)
        hvalid (by simpa using hsafe)) rfl rfl rfl)

theorem leader_qc_deeds (h : leaderQc p w ord r = .ok r') : Deeds keys arrives expires w r r' := by
  rcases leader_qc_cases h with ⟨rfl, _⟩ | ⟨qc, hleader, _, hqc, rfl⟩
  · exact .refl
  have honce : (r.rs.viewData r.rs.view).broadcast p = false := by
    by_contra hdone
    have hrest : leaderQc p w ord r = .ok r :=
      leaderQc_rests (Or.inr (Or.inl (by simpa using hdone)))
    have heff := congrArg Replica.effects (Except.ok.inj (hrest.symm.trans h))
    simp at heff
  refine .single ⟨.certify p ord qc hleader hqc, ?_, ?_, ?_, ?_⟩
  · intro q qc' he
    have hcons := List.append_cancel_left he
    have hq : p = q := by
      injection hcons with hb
      injection hb with hmsg
      injection hmsg with hty
      cases p <;> cases q <;> cases hty <;> rfl
    exact hq ▸ honce
  · intro u hu
    rw [certify_eq] at hu
    refine Or.inl ?_
    have hsame := field_update (f := ViewData.voted) (g := r.rs.viewData) (v := r.rs.view)
      (d := { r.rs.viewData r.rs.view with
        broadcast := Function.update (r.rs.viewData r.rs.view).broadcast p true
        seen := Function.update (r.rs.viewData r.rs.view).seen p true }) rfl u
    exact (congrFun hsame .prepare).symm.trans hu
  · intro _
    rw [certify_eq]
    rfl
  · intro hne
    rw [certify_eq] at hne
    exact absurd rfl hne

theorem replica_vote_deeds {p next : Phase} {hold : QC C → ReplicaState C → ReplicaState C}
    (hm : ∀ qc, (r.rs.viewData r.rs.view).seen p = true →
      (r.rs.viewData r.rs.view).voted next = false → r.rs.staged p r.rs.view = some qc →
      Move keys arrives w r (castVote w next qc.nodeHash (r.withRs (hold qc))))
    (hhold : ∀ qc, (hold qc r.rs).view = r.rs.view ∧
      (hold qc r.rs).timeoutIntervalMs = r.rs.timeoutIntervalMs ∧
      (hold qc r.rs).viewData = r.rs.viewData)
    (h : replicaVote p next hold w r = .ok r') : Deeds keys arrives expires w r r' := by
  rcases replica_vote_cases h with ⟨rfl, _⟩ | ⟨qc, hseen, honce, hqc, rfl⟩
  · exact .refl
  · obtain ⟨hview, htime, hdata⟩ := hhold qc
    exact .single (castVote_deed (hold qc r.rs) (hm qc hseen honce hqc) hview htime hdata)

theorem enter_deed {timeout : Nat} (h : Departs expires w r (enterNewView w (r.rs.view + 1)
      (r.withRs (fun rs => { rs with timeoutIntervalMs := timeout })))) :
    Deed keys arrives expires w r (enterNewView w (r.rs.view + 1)
      (r.withRs (fun rs => { rs with timeoutIntervalMs := timeout }))) := by
  refine ⟨.enter timeout, ?_, ?_, ?_, fun _ => h⟩
  · intro p qc he
    rw [enterNewView_eq] at he
    have hcons := List.append_cancel_left he
    split at hcons <;> cases hcons
  · intro u hu
    rw [enter_field ViewData.voted u (fun _ _ => rfl)] at hu
    exact Or.inl hu
  · intro he
    simp at he

theorem replica_decide_deeds (h : replicaDecide w r = .ok r') (hw : ¬ Wraps r r') :
    Deeds keys arrives expires w r r' := by
  rcases replica_decide_cases h hw with ⟨rfl, _⟩ | ⟨qc, mid, hseen, hqc, _, hchores, hview, rfl⟩
  · exact .refl
  have hback := chores_backstage hchores
  have hdecide : Deed keys arrives expires w r (r.withRs (fun rs =>
      { rs with decidedNodes := rs.decidedNodes.insert qc.nodeHash () })) :=
    Deed.silent (.decide qc hqc) rfl rfl (fun _ => rfl)
  have hleave : Deed keys arrives expires w mid (enterNewView w (mid.rs.view + 1)
      (mid.withRs (fun rs => { rs with timeoutIntervalMs := w.timeoutBaseMs }))) := by
    refine enter_deed (.decided qc ?_ ?_ ?_ ?_)
    · rw [hview, hback.viewData]
      exact hseen
    · rw [hview, hback.staged]
      exact hqc
    · rw [hback.decidedNodes]
      simp
    · rw [enterNewView_eq]
      rfl
  rw [hview] at hleave
  exact .head hdecide ((chores_deeds hchores).tail hleave)

theorem rule_deeds (rule : Rule) (h : rule.run w ord r = .ok r') (hw : ¬ Wraps r r') :
    Deeds keys arrives expires w r r' := by
  cases rule with
  | leaderPrepare => exact leader_prepare_deeds h
  | replicaPrepare => exact replica_prepare_deeds h
  | leaderPreCommit => exact leader_qc_deeds (p := .prepare) h
  | replicaPreCommit =>
    exact replica_vote_deeds (fun qc hs ho hq => .preCommit qc hs ho hq)
      (fun _ => ⟨rfl, rfl, rfl⟩) h
  | leaderCommit => exact leader_qc_deeds (p := .preCommit) h
  | replicaCommit =>
    exact replica_vote_deeds (fun qc hs ho hq => .commit qc hs ho hq) (fun _ => ⟨rfl, rfl, rfl⟩) h
  | leaderDecide => exact leader_qc_deeds (p := .commit) h
  | replicaDecide => exact replica_decide_deeds h hw
  | retryPendingExecute => exact chores_deeds (retry_chores h)
  | tryKickPendingValidations => exact chores_deeds (kick_leaves_chores h)

/-- An event other than an expiry writes the state alone before its chores. -/
theorem message_deeds (msg : Wire C) (h : handleMsg keys w r msg = .ok r') (ha : arrives msg) :
    Deeds keys arrives expires w r r' := by
  cases msg with
  | hello nodeId pubkey => cases h; exact .refl
  | proposal view node justify sender =>
    rcases proposal_cases h with rfl | ⟨hleader, hsigs, hparent, hkick⟩
    · exact .refl
    · exact .head (Deed.silent (.stash view node justify sender ha hleader hsigs hparent) rfl rfl
        (field_update ViewData.voted (by rfl))) (chores_deeds (kick_chores hkick))
  | phaseQc ty view qc sender =>
    simp only [handleMsg, handlePhaseQc] at h
    split at h
    · cases h; exact .refl
    rename_i hleader
    split at h
    · cases h; exact .refl
    rename_i p hphase
    split at h
    · cases h; exact .refl
    rename_i hsame
    split at h
    · cases h; exact .refl
    rename_i hsigs
    cases h
    simp only [not_or, Decidable.not_not] at hsame
    refine .single (Deed.silent (.receive ty p view qc sender ha (by simpa using hleader) hphase
      hsame.1 hsame.2 (by simpa using hsigs)) ?_ ?_ ?_)
    · rw [receiveQc_eq, stageQc_eq]
      rfl
    · rw [receiveQc_eq, stageQc_eq]
      rfl
    · rw [receiveQc_eq, stageQc_eq]
      exact field_update ViewData.voted (by rfl)
  | vote ty view nh voter sig =>
    simp only [handleMsg, handleVote] at h
    split at h
    · cases h; exact .refl
    rename_i hleader
    split at h
    · cases h; exact .refl
    rename_i hsigs
    split at h
    · cases h; exact .refl
    rename_i p hphase
    cases h
    refine .single (Deed.silent (.count ty p view nh voter sig ha (by simpa using hleader) hphase
      ?_) rfl rfl (field_update ViewData.voted (by rfl)))
    by_cases hv : voter = w.myId
    · exact Or.inl hv
    · right
      simpa [hv, Option.any_eq_true] using hsigs
  | newView view justify sender =>
    simp only [handleMsg, handleNewView] at h
    split at h
    · cases h
    rename_i next hnext
    split at h
    · cases h; exact .refl
    rename_i hleader
    split at h
    · cases h; exact .refl
    rename_i hsigs
    cases h
    exact .single (Deed.silent (.collect view justify sender next ha hnext (by simpa using hleader)
      (by simpa using hsigs)) rfl rfl (field_update ViewData.voted (by rfl)))

theorem event_deeds (ev : Event C) (h : handleEvent keys w r ev = .ok r') (hw : ¬ Wraps r r')
    (ha : ∀ msg, ev = .message msg → arrives msg) (he : ev = .timer r.rs.view → expires) :
    Deeds keys arrives expires w r r' := by
  cases ev with
  | message msg => exact message_deeds msg h (ha msg rfl)
  | timer view =>
    simp only [handleEvent, handleTimer] at h
    split at h
    · cases h; exact .refl
    rename_i hview
    split at h
    · cases h; exact .refl
    rename_i hseen
    split at h
    · cases h
    rename_i next hnext
    cases h
    rcases add_one_cases hnext with rfl | ⟨_, hmax, rfl⟩
    rotate_left
    · exact absurd ⟨hmax, enterNewView_view ..⟩ hw
    refine .single (enter_deed (.expired (he ?_) (by simpa using hseen) ?_))
    · simp only [Decidable.not_not] at hview
      rw [hview]
    · rw [enterNewView_eq]
      rfl
  | validated k =>
    simp only [handleEvent] at h
    split at h
    · cases h; exact .refl
    · rename_i req input hk
      obtain ⟨out, hran, rfl⟩ := map_ok.mp h
      refine .single (Deed.plain (.ingest k req input out hk hran) rfl rfl
        (fun u hu => Or.inl hu) ?_)
      intro msg he
      simp at he

/-- Every step of a node is a sequence of deeds. A view is left by timeout only
where its timer is what the step consumed. -/
theorem step_deeds {ev : Option (Event C)} {m m' : Machine C} (h : Machine.Step keys w ev m m')
    (hw : ¬ Wraps m.replica m'.replica)
    (ha : ∀ msg, ev = some (.message msg) → arrives msg)
    (he : ev = some (.timer m.replica.rs.view) → expires) :
    Deeds keys arrives expires w m.replica m'.replica := by
  cases h with
  | event ev r r' running ran =>
    exact event_deeds ev ran hw (fun msg hev => ha msg (congrArg some hev))
      (fun hev => he (congrArg some hev))
  | rule ord rule rest r r' ran => exact rule_deeds rule ran hw

theorem deeds_invariant {P : Replica C → Prop}
    (hs : ∀ r r', P r → Deed keys arrives expires w r r' → P r')
    (hd : Deeds keys arrives expires w r r') (h : P r) : P r' := by
  induction hd with
  | refl => exact h
  | tail _ hd ih => exact hs _ _ ih hd

/-- An invariant of one node, kept by each of its deeds. -/
theorem reach_deeds {P : Replica C → Prop} {m : Machine C}
    (h0 : P (startProtocol w (bootReplica w n)))
    (hs : ∀ keys r r', P r → Deed keys (fun _ => True) True w r r' → P r')
    (hr : Machine.Reach w n m) : P m.replica := by
  induction hr with
  | start => exact h0
  | step keys ev _ hstep hw ih =>
    exact deeds_invariant (hs keys) (step_deeds hstep hw (fun _ _ => trivial) (fun _ => trivial))
      ih

end
end ZkStf
