import ZkStf.Proofs.Moves
import ZkStf.Proofs.Certificates

namespace ZkStf
open ZkStf.Basis
open ZkStf.Basis.Ballots (Phase)
variable {C : Crypto}

section
variable {w : Wiring C} {r r' r'' : Replica C} {ord ord' : Order} {p next : Phase}

/-- The prepare rule has nothing to decide on. -/
def Unproposed (r : Replica C) : Prop :=
  (r.rs.viewData r.rs.view).proposal = none ∨
    (r.rs.viewData r.rs.view).voted .prepare = true ∨
    ∃ leaf high, (r.rs.viewData r.rs.view).proposal = some (leaf, high) ∧
      r.rs.validationResult (nodeHash leaf) = none

/-- The leader has no certificate of the phase to announce. -/
def Uncertified (w : Wiring C) (p : Phase) (r : Replica C) : Prop :=
  r.rs.leaderFor r.rs.view ≠ w.myId ∨ (r.rs.viewData r.rs.view).broadcast p = true ∨
    NoQuorum ((r.rs.viewData r.rs.view).votes p) r.rs.quorum

/-- There is no certificate of phase `p` to answer with a vote of the next. -/
def Unanswered (p next : Phase) (r : Replica C) : Prop :=
  (r.rs.viewData r.rs.view).seen p = false ∨ (r.rs.viewData r.rs.view).voted next = true ∨
    r.rs.staged p r.rs.view = none

/-- The rules of the current view have all fired or wait for an event. -/
@[mk_iff]
structure Resting (w : Wiring C) (ord : Order) (r : Replica C) : Prop where
  propose : Withheld w ord r
  prepare : Unproposed r
  certify : ∀ p, Uncertified w p r
  preCommit : Unanswered .prepare .preCommit r
  commit : Unanswered .preCommit .commit r
  decide : (r.rs.viewData r.rs.view).seen .commit = false ∨ r.rs.staged .commit r.rs.view = none

theorem leaderPrepare_rests (h : Withheld w ord r) : leaderPrepare w ord r = .ok r := by
  unfold leaderPrepare
  dsimp only
  split
  · rfl
  rename_i hleader
  split
  · rfl
  rename_i honce
  split
  · rfl
  rename_i henough
  rcases h with h | h | h | h | ⟨height, h, hpast⟩
  · exact absurd h hleader
  · exact absurd h honce
  · exact absurd h henough
  · simp only [vd_eq, h]
  · simp only [vd_eq, h, if_pos hpast]

theorem replicaPrepare_rests (h : Unproposed r) : replicaPrepare w r = .ok r := by
  unfold replicaPrepare
  dsimp only
  split
  · rfl
  rename_i leaf high hprop
  split
  · rfl
  rename_i honce
  rcases h with h | h | ⟨leaf', high', h, hopen⟩
  · cases h.symm.trans hprop
  · exact absurd h honce
  · cases h.symm.trans hprop
    rw [hopen]

theorem leaderQc_rests (h : Uncertified w p r) : leaderQc p w ord r = .ok r := by
  unfold leaderQc
  dsimp only
  split
  · rfl
  rename_i hleader
  split
  · rfl
  rename_i honce
  rcases h with h | h | h
  · exact absurd h hleader
  · exact absurd h honce
  · simp only [vd_eq, formQc_eq_none.mpr h]

theorem replicaVote_rests (h : Unanswered p next r)
    (hold : QC C → ReplicaState C → ReplicaState C) :
    replicaVote p next hold w r = .ok r := by
  unfold replicaVote
  dsimp only
  split
  · rfl
  rename_i hopen
  rcases h with h | h | h
  · exact absurd (Or.inl (by simpa using h)) hopen
  · exact absurd (Or.inr h) hopen
  · rw [h]

theorem Resting.rule (h : Resting w ord r) (hretry : retryPendingExecute w ord r = .ok r)
    (hkick : tryKickPendingValidations w ord r = .ok r) (rule : Rule) :
    rule.run w ord r = .ok r := by
  cases rule with
  | leaderPrepare => exact leaderPrepare_rests h.propose
  | replicaPrepare => exact replicaPrepare_rests h.prepare
  | leaderPreCommit => exact leaderQc_rests (h.certify .prepare)
  | replicaPreCommit => exact replicaVote_rests h.preCommit _
  | leaderCommit => exact leaderQc_rests (h.certify .preCommit)
  | replicaCommit => exact replicaVote_rests h.commit _
  | leaderDecide => exact leaderQc_rests (h.certify .commit)
  | replicaDecide =>
    simp only [Rule.run, replicaDecide]
    split
    · rfl
    rename_i hopen
    rcases h.decide with hseen | hnone
    · exact absurd (by simpa using hseen) hopen
    · rw [hnone]
  | retryPendingExecute => exact hretry
  | tryKickPendingValidations => exact hkick

theorem rules_rest {rules : List Rule} (h : ∀ rule ∈ rules, rule.run w ord r = .ok r) :
    runRules w ord rules r = .ok r := by
  induction rules with
  | nil => rfl
  | cons rule rest ih =>
    unfold runRules
    rw [h rule (by simp)]
    exact ih (fun x hx => h x (by simp [hx]))

/-- The node stays in its view: other views and the verdicts are left alone. -/
structure Abides (r r' : Replica C) : Prop where
  n : r'.rs.n = r.rs.n
  quorum : r'.rs.quorum = r.rs.quorum
  view : r'.rs.view = r.rs.view
  verdicts : r'.rs.validationResult = r.rs.validationResult
  others : ∀ v, v ≠ r.rs.view → r'.rs.viewData v = r.rs.viewData v
  newViews : ∀ v, (r'.rs.viewData v).newViewMsgs = (r.rs.viewData v).newViewMsgs
  ahead : ∀ p v, v ≠ r.rs.view → r'.rs.staged p v = r.rs.staged p v

/-- It decides nothing either. -/
structure Stays (r r' : Replica C) : Prop extends Abides r r' where
  decided : r'.rs.decidedNodes = r.rs.decidedNodes

/-- Beyond that, nothing is proposed and no flag of the view is taken back. -/
structure Proceeds (r r' : Replica C) : Prop extends Stays r r' where
  tree : r'.rs.tree = r.rs.tree
  proposal : (r'.rs.viewData r.rs.view).proposal = (r.rs.viewData r.rs.view).proposal
  proposed : (r'.rs.viewData r.rs.view).broadcastProposal =
    (r.rs.viewData r.rs.view).broadcastProposal
  voted : ∀ p, (r.rs.viewData r.rs.view).voted p = true →
    (r'.rs.viewData r.rs.view).voted p = true
  broadcast : ∀ p, (r.rs.viewData r.rs.view).broadcast p = true →
    (r'.rs.viewData r.rs.view).broadcast p = true

/-- The votes, the flags and the certificate of a phase of the view are left alone. -/
structure Untouched (p : Phase) (r r' : Replica C) : Prop where
  votes : (r'.rs.viewData r.rs.view).votes p = (r.rs.viewData r.rs.view).votes p
  seen : (r'.rs.viewData r.rs.view).seen p = (r.rs.viewData r.rs.view).seen p
  staged : r'.rs.staged p = r.rs.staged p
  cast : (r'.rs.viewData r.rs.view).voted p = (r.rs.viewData r.rs.view).voted p
  announced : (r'.rs.viewData r.rs.view).broadcast p = (r.rs.viewData r.rs.view).broadcast p

theorem Abides.trans (h : Abides r r') (h' : Abides r' r'') : Abides r r'' where
  n := h'.n.trans h.n
  quorum := h'.quorum.trans h.quorum
  view := h'.view.trans h.view
  verdicts := h'.verdicts.trans h.verdicts
  others v hv := (h'.others v (by rw [h.view]; exact hv)).trans (h.others v hv)
  newViews v := (h'.newViews v).trans (h.newViews v)
  ahead p v hv := (h'.ahead p v (by rw [h.view]; exact hv)).trans (h.ahead p v hv)

theorem Stays.trans (h : Stays r r') (h' : Stays r' r'') : Stays r r'' :=
  ⟨h.toAbides.trans h'.toAbides, h'.decided.trans h.decided⟩

theorem Proceeds.refl (r : Replica C) : Proceeds r r :=
  ⟨⟨⟨rfl, rfl, rfl, rfl, fun _ _ => rfl, fun _ => rfl, fun _ _ _ => rfl⟩, rfl⟩, rfl, rfl, rfl,
    fun _ => id, fun _ => id⟩

theorem Untouched.refl (p : Phase) (r : Replica C) : Untouched p r r := ⟨rfl, rfl, rfl, rfl, rfl⟩

theorem Proceeds.trans (h : Proceeds r r') (h' : Proceeds r' r'') : Proceeds r r'' := by
  have hview := h.view
  refine ⟨h.toStays.trans h'.toStays, h'.tree.trans h.tree, ?_, ?_, ?_, ?_⟩
  · rw [← hview, h'.proposal, hview, h.proposal]
  · rw [← hview, h'.proposed, hview, h.proposed]
  · intro p hp
    rw [← hview]
    exact h'.voted p (by rw [hview]; exact h.voted p hp)
  · intro p hp
    rw [← hview]
    exact h'.broadcast p (by rw [hview]; exact h.broadcast p hp)

theorem Untouched.trans (hview : r'.rs.view = r.rs.view) (h : Untouched p r r')
    (h' : Untouched p r' r'') : Untouched p r r'' := by
  refine ⟨?_, ?_, h'.staged.trans h.staged, ?_, ?_⟩
  · rw [← hview, h'.votes, hview, h.votes]
  · rw [← hview, h'.seen, hview, h.seen]
  · rw [← hview, h'.cast, hview, h.cast]
  · rw [← hview, h'.announced, hview, h.announced]

theorem Backstage.proceeds (h : Backstage r r') : Proceeds r r' := by
  have hdata := h.viewData
  have hstaged := h.staged
  refine ⟨⟨⟨h.n, h.quorum, h.view, h.validationResult, ?_, ?_, ?_⟩, h.decidedNodes⟩, h.tree, ?_, ?_,
    ?_, ?_⟩ <;> simp [hdata, hstaged]

theorem Backstage.untouched (h : Backstage r r') (p : Phase) : Untouched p r r' := by
  refine ⟨?_, ?_, by rw [h.staged], ?_, ?_⟩ <;> rw [h.viewData]

theorem newHeight_congr {rs rs' : ReplicaState C} (h : rs'.tree = rs.tree)
    (high : Option (QC C)) : newHeight w rs' high = newHeight w rs high := by
  cases high with
  | none => rfl
  | some q => simp only [newHeight, h]

theorem Withheld.proceeds (h : Withheld w ord r) (hp : Proceeds r r') : Withheld w ord r' := by
  unfold Withheld
  rw [leaderFor_congr hp.n, hp.view, hp.proposed, hp.newViews, hp.quorum]
  simp only [newHeight_congr hp.tree]
  exact h

theorem Unproposed.proceeds (h : Unproposed r) (hp : Proceeds r r') : Unproposed r' := by
  unfold Unproposed
  rw [hp.view, hp.proposal, hp.verdicts]
  exact h.imp_right (Or.imp_left (hp.voted .prepare))

theorem Uncertified.proceeds (h : Uncertified w p r) (hp : Proceeds r r')
    (hu : Untouched p r r') : Uncertified w p r' := by
  unfold Uncertified
  rw [leaderFor_congr hp.n, hp.view, hu.votes, hp.quorum]
  exact h.imp_right (Or.imp_left (hp.broadcast p))

theorem Unanswered.proceeds (h : Unanswered p next r) (hp : Proceeds r r')
    (hu : Untouched p r r') : Unanswered p next r' := by
  unfold Unanswered
  rw [hp.view, hu.seen, hu.staged]
  exact h.imp_right (Or.imp_left (hp.voted next))

/-- Backstage nothing changes for the rules of a view. -/
theorem Backstage.resting (hb : Backstage r r') : Resting w ord r' ↔ Resting w ord r := by
  have hpropose : Withheld w ord r' ↔ Withheld w ord r := by
    unfold Withheld
    rw [leaderFor_congr hb.n, hb.view, hb.viewData, hb.quorum]
    simp only [newHeight_congr hb.tree]
  have hprepare : Unproposed r' ↔ Unproposed r := by
    unfold Unproposed
    rw [hb.view, hb.viewData, hb.validationResult]
  have hcertify : ∀ p, Uncertified w p r' ↔ Uncertified w p r := by
    intro p
    unfold Uncertified
    rw [leaderFor_congr hb.n, hb.view, hb.viewData, hb.quorum]
  have hanswer : ∀ p next, Unanswered p next r' ↔ Unanswered p next r := by
    intro p next
    unfold Unanswered
    rw [hb.view, hb.viewData, hb.staged]
  simp only [resting_iff, hpropose, hprepare, hcertify, hanswer, hb.view, hb.viewData, hb.staged]

/-- A step that writes the data of the current view only. -/
theorem Proceeds.of_update {d : ViewData C}
    (hrs : r'.rs = { r.rs with
      viewData := Function.update r.rs.viewData r.rs.view d
      lockedQc := r'.rs.lockedQc
      prepareQc := r'.rs.prepareQc
      staged := r'.rs.staged })
    (hnew : d.newViewMsgs = (r.rs.viewData r.rs.view).newViewMsgs)
    (hproposal : d.proposal = (r.rs.viewData r.rs.view).proposal)
    (hproposed : d.broadcastProposal = (r.rs.viewData r.rs.view).broadcastProposal)
    (hvoted : ∀ p, (r.rs.viewData r.rs.view).voted p = true → d.voted p = true)
    (hbroadcast : ∀ p, (r.rs.viewData r.rs.view).broadcast p = true → d.broadcast p = true)
    (hahead : ∀ p v, v ≠ r.rs.view → r'.rs.staged p v = r.rs.staged p v) : Proceeds r r' := by
  have hdata : r'.rs.viewData = Function.update r.rs.viewData r.rs.view d := by rw [hrs]
  have hself : r'.rs.viewData r.rs.view = d := by rw [hdata, Function.update_self]
  refine ⟨⟨⟨by rw [hrs], by rw [hrs], by rw [hrs], by rw [hrs], ?_, ?_, hahead⟩, by rw [hrs]⟩,
    by rw [hrs], ?_, ?_, ?_, ?_⟩
  · intro v hv
    rw [hdata, Function.update_of_ne hv]
  · intro v
    by_cases hv : v = r.rs.view
    · rw [hv, hself, hnew]
    · rw [hdata, Function.update_of_ne hv]
  · rw [hself, hproposal]
  · rw [hself, hproposed]
  · rw [hself]
    exact hvoted
  · rw [hself]
    exact hbroadcast

theorem update_true {f : Phase → Bool} {p q : Phase} (h : f q = true) :
    Function.update f p true q = true := by
  rw [Function.update_apply]
  split
  · rfl
  · exact h

/-- A vote touches its own phase alone, and is cast once. -/
theorem castVote_proceeds (p : Phase) (nh : C.Hash) (r : Replica C) :
    Proceeds r (castVote w p nh r) ∧ (∀ q, q ≠ p → Untouched q r (castVote w p nh r)) ∧
      ((castVote w p nh r).rs.viewData r.rs.view).voted p = true := by
  rw [castVote_eq]
  refine ⟨?_, ?_, ?_⟩
  · apply Proceeds.of_update
    · rfl
    · rfl
    · rfl
    · rfl
    · exact fun q hq => update_true hq
    · exact fun q hq => hq
    · exact fun q v _ => rfl
  · intro q hq
    refine ⟨?_, ?_, rfl, ?_, ?_⟩
    · simp only [vdMut_viewData, ↓reduceIte]
      split
      · rw [Function.update_of_ne hq]
      · rfl
    · simp only [vdMut_viewData, ↓reduceIte]
    · simp only [vdMut_viewData, ↓reduceIte, Function.update_of_ne hq]
    · simp only [vdMut_viewData, ↓reduceIte]
  · simp only [vdMut_viewData, ↓reduceIte, Function.update_self]

theorem skipPrepare_proceeds (r : Replica C) :
    Proceeds r (skipPrepare r) ∧ (∀ q, q ≠ .prepare → Untouched q r (skipPrepare r)) ∧
      ((skipPrepare r).rs.viewData r.rs.view).voted .prepare = true := by
  refine ⟨?_, ?_, ?_⟩
  · exact Proceeds.of_update rfl rfl rfl rfl (fun q hq => update_true hq) (fun q hq => hq)
      (fun q v _ => rfl)
  · intro q hq
    refine ⟨?_, ?_, rfl, ?_, ?_⟩ <;>
      simp only [skipPrepare, withRs_rs, vdMut_viewData, ↓reduceIte, Function.update_of_ne hq]
  · simp only [skipPrepare, withRs_rs, vdMut_viewData, ↓reduceIte, Function.update_self]

theorem sendProposal_viewData (leaf : Node C) (high : Option (QC C)) (r : Replica C) (v : Nat) :
    (sendProposal w leaf high r).rs.viewData v =
      if v = r.rs.view then { r.rs.viewData r.rs.view with
        proposal := (r.rs.viewData r.rs.view).proposal.or (some (leaf, high))
        broadcastProposal := true } else r.rs.viewData v := by
  simp only [sendProposal, emit_rs, withRs_rs, stashProposal, vdMut_viewData, ↓reduceIte]
  split <;> rfl

/-- Once a leader has proposed, or cannot, nothing more happens in its view. -/
theorem leader_prepare_rests (h : leaderPrepare w ord r = .ok r') :
    Stays r r' ∧ Withheld w ord r' ∧ ∀ q, Untouched q r r' := by
  rcases leader_prepare_cases h with ⟨rfl, hw⟩ | ⟨newViews, leaf, block, _, _, _, _, _, _, _, _, _,
    hkick⟩
  · exact ⟨(Proceeds.refl _).toStays, hw, fun q => .refl q _⟩
  have hback := chores_backstage (kick_chores hkick)
  have hsent : Stays r (sendProposal w leaf (highQc newViews) r) := by
    refine ⟨⟨rfl, rfl, rfl, rfl, ?_, ?_, fun _ _ _ => rfl⟩, rfl⟩
    · intro v hv
      rw [sendProposal_viewData, if_neg hv]
    · intro v
      rw [sendProposal_viewData]
      split
      · rename_i hv
        rw [hv]
      · rfl
  refine ⟨hsent.trans hback.proceeds.toStays, ?_, ?_⟩
  · refine Withheld.proceeds (Or.inr (Or.inl ?_)) hback.proceeds
    rw [hsent.view, sendProposal_viewData, if_pos rfl]
  · intro q
    refine Untouched.trans hsent.view ⟨?_, ?_, rfl, ?_, ?_⟩ (hback.untouched q) <;>
      rw [sendProposal_viewData, if_pos rfl]

theorem replica_prepare_rests (h : replicaPrepare w r = .ok r') :
    Proceeds r r' ∧ Unproposed r' ∧ ∀ q, q ≠ .prepare → Untouched q r r' := by
  have hdone : ∀ {x : Replica C}, Proceeds r x →
      (x.rs.viewData r.rs.view).voted .prepare = true → Unproposed x := by
    intro x hp hv
    rw [← hp.view] at hv
    exact Or.inr (Or.inl hv)
  rcases replica_prepare_cases h with ⟨rfl, hwait⟩ | rfl | ⟨leaf, high, _, _, _, _, rfl⟩
  · exact ⟨.refl _, hwait, fun q _ => .refl q _⟩
  · obtain ⟨hp, hu, hv⟩ := skipPrepare_proceeds r
    exact ⟨hp, hdone hp hv, hu⟩
  · obtain ⟨hp, hu, hv⟩ := castVote_proceeds (w := w) .prepare (nodeHash leaf) r
    exact ⟨hp, hdone hp hv, hu⟩

/-- Announcing a certificate stages it, unless the view has one already. -/
theorem certify_eq (p : Phase) (qc : QC C) (r : Replica C) (msg : Wire C) :
    ((r.withRs (fun rs => stageQc p rs.view qc (rs.vdMut rs.view (fun d =>
      { d with broadcast := Function.update d.broadcast p true })))).emit (.broadcast msg)).rs =
    { r.rs.vdMut r.rs.view (fun d => { d with
        broadcast := Function.update d.broadcast p true
        seen := Function.update d.seen p true }) with
      staged := if (r.rs.viewData r.rs.view).seen p then r.rs.staged else
        Function.update r.rs.staged p (Function.update (r.rs.staged p) r.rs.view (some qc)) } := by
  simp only [emit_rs, withRs_rs, stageQc_eq, vdMut_viewData, ↓reduceIte]
  simp only [ReplicaState.vdMut, Function.update_idem, Function.update_self]

theorem leader_qc_rests (h : leaderQc p w ord r = .ok r') :
    Proceeds r r' ∧ Uncertified w p r' ∧ ∀ q, q ≠ p → Untouched q r r' := by
  rcases leader_qc_cases h with ⟨rfl, hwait⟩ | ⟨qc, hleader, _, hqc, rfl⟩
  · refine ⟨.refl _, ?_, fun q _ => .refl q _⟩
    exact hwait.imp_right (Or.imp_right formQc_eq_none.mp)
  have hrs := certify_eq p qc r (.phaseQc (announcedBy p) r.rs.view qc w.myId)
  refine ⟨?_, ?_, ?_⟩
  · apply Proceeds.of_update
    · rw [hrs]
      rfl
    · rfl
    · rfl
    · rfl
    · exact fun q hq => hq
    · exact fun q hq => update_true hq
    · intro q v hv
      rw [hrs]
      dsimp only
      split
      · rfl
      · rw [Function.update_apply]
        split
        · rename_i hqp
          rw [Function.update_of_ne hv, hqp]
        · rfl
  · refine Or.inr (Or.inl ?_)
    rw [hrs]
    simp only [vdMut_view, vdMut_viewData, ↓reduceIte, Function.update_self]
  · intro q hq
    refine ⟨?_, ?_, ?_, ?_, ?_⟩
    · rw [hrs]
      simp only [vdMut_viewData, ↓reduceIte]
    · rw [hrs]
      simp only [vdMut_viewData, ↓reduceIte, Function.update_of_ne hq]
    · rw [hrs]
      dsimp only
      split
      · rfl
      · rw [Function.update_of_ne hq]
    · rw [hrs]
      simp only [vdMut_viewData, ↓reduceIte]
    · rw [hrs]
      simp only [vdMut_viewData, ↓reduceIte, Function.update_of_ne hq]

/-- The certificates a replica keeps are no concern of the rules' conditions. -/
theorem replica_vote_rests {hold : QC C → ReplicaState C → ReplicaState C}
    (hhold : ∀ qc (r : Replica C), Proceeds r (r.withRs (hold qc)) ∧
      (hold qc r.rs).viewData = r.rs.viewData ∧ (hold qc r.rs).staged = r.rs.staged)
    (h : replicaVote p next hold w r = .ok r') :
    Proceeds r r' ∧ Unanswered p next r' ∧ ∀ q, q ≠ next → Untouched q r r' := by
  rcases replica_vote_cases h with ⟨rfl, hwait⟩ | ⟨qc, _, _, _, rfl⟩
  · exact ⟨.refl _, hwait, fun q _ => .refl q _⟩
  obtain ⟨hheld, hdata, hstaged⟩ := hhold qc r
  obtain ⟨hp, hu, hv⟩ := castVote_proceeds (w := w) next qc.nodeHash (r.withRs (hold qc))
  refine ⟨hheld.trans hp, Or.inr (Or.inl ?_), ?_⟩
  · rw [hp.view]
    exact hv
  · intro q hq
    refine Untouched.trans hheld.view ⟨?_, ?_, congrFun hstaged q, ?_, ?_⟩ (hu q hq) <;>
      rw [withRs_rs, hdata]

theorem holdPrepare_proceeds (qc : QC C) (r : Replica C) :
    Proceeds r (r.withRs (holdPrepare qc)) ∧ (holdPrepare qc r.rs).viewData = r.rs.viewData ∧
      (holdPrepare qc r.rs).staged = r.rs.staged :=
  ⟨{ Proceeds.refl r with }, rfl, rfl⟩

theorem holdLock_proceeds (qc : QC C) (r : Replica C) :
    Proceeds r (r.withRs (holdLock qc)) ∧ (holdLock qc r.rs).viewData = r.rs.viewData ∧
      (holdLock qc r.rs).staged = r.rs.staged :=
  ⟨{ Proceeds.refl r with }, rfl, rfl⟩

end
end ZkStf
