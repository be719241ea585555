import ZkStf.Proofs.Holdings

namespace ZkStf
open ZkStf.Basis
open ZkStf.Basis.Ballots (Phase)
variable {C : Crypto}

/-- The node signed the digest at some moment of its run. -/
def Replica.Signed (r : Replica C) (d : VoteDigest C.Hash) : Prop :=
  ∃ verdict, Effect.sign d verdict ∈ r.effects

/-- What a move that casts no vote leaves of the votes behind. -/
structure Quiet (r r' : Replica C) : Prop where
  signs : ∀ d verdict, .sign d verdict ∈ r'.effects → .sign d verdict ∈ r.effects
  view : r.rs.view ≤ r'.rs.view
  voted : ∀ v p, (r.rs.viewData v).voted p = true → (r'.rs.viewData v).voted p = true
  prepareQc : r'.rs.prepareQc = r.rs.prepareQc
  lockedQc : r'.rs.lockedQc = r.rs.lockedQc

/-- Why a node votes, and the state it votes in. -/
inductive Casts (r : Replica C) : Phase → C.Hash → ReplicaState C → Prop
  | prepare (leaf : Node C) (high : Option (QC C))
      (proposal : (r.rs.viewData r.rs.view).proposal = some (leaf, high))
      (valid : r.rs.validationResult (nodeHash leaf) = some true)
      (safe : safeNode leaf high r.rs.lockedQc r.rs.tree = true) :
      Casts r .prepare (nodeHash leaf) r.rs
  | preCommit (qc : QC C) (staged : r.rs.staged .prepare r.rs.view = some qc) :
      Casts r .preCommit qc.nodeHash (holdPrepare qc r.rs)
  | commit (qc : QC C) (staged : r.rs.staged .preCommit r.rs.view = some qc) :
      Casts r .commit qc.nodeHash (holdLock qc r.rs)

section
variable {keys : Nat → Option C.Key} {arrives arrives' : Wire C → Prop} {w : Wiring C}
  {r r' : Replica C}

/-- What a node has done stays done. -/
theorem Move.effects_grow (hm : Move keys arrives w r r') : r.effects <+: r'.effects := by
  cases hm with
  | stash => exact List.prefix_rfl
  | receive => exact List.prefix_rfl
  | count => exact List.prefix_rfl
  | collect => exact List.prefix_rfl
  | ingest => exact List.prefix_rfl
  | enter timeout => rw [enterNewView_eq]; exact List.prefix_append _ _
  | propose => exact List.prefix_append _ _
  | skip => exact List.prefix_rfl
  | prepare => rw [castVote_eq]; exact List.prefix_append _ _
  | certify => exact List.prefix_append _ _
  | preCommit => rw [castVote_eq]; exact List.prefix_append _ _
  | commit => rw [castVote_eq]; exact List.prefix_append _ _
  | decide => exact List.prefix_rfl
  | execute decided nh node r' known path found next valid applied =>
    rw [(applyNode_frame applied).2.2]
    exact List.prefix_append _ _
  | kick => exact List.prefix_append _ _

theorem Move.signed_grow (hm : Move keys arrives w r r') {d : VoteDigest C.Hash}
    (h : r.Signed d) : r'.Signed d := by
  obtain ⟨verdict, hs⟩ := h
  exact ⟨verdict, hm.effects_grow.subset hs⟩

theorem Move.mono (ha : ∀ msg, arrives msg → arrives' msg) (hm : Move keys arrives w r r') :
    Move keys arrives' w r r' := by
  cases hm with
  | stash view node justify sender arrived leader sigs parent =>
    exact .stash view node justify sender (ha _ arrived) leader sigs parent
  | receive ty p view qc sender arrived leader phase type same sigs =>
    exact .receive ty p view qc sender (ha _ arrived) leader phase type same sigs
  | count ty p view nh voter sig arrived leader phase signed =>
    exact .count ty p view nh voter sig (ha _ arrived) leader phase signed
  | collect view justify sender next arrived added leader sigs =>
    exact .collect view justify sender next (ha _ arrived) added leader sigs
  | ingest k req input out queued ran => exact .ingest k req input out queued ran
  | enter timeout => exact .enter timeout
  | propose newViews leaf leader once read enough parent height inRange block =>
    exact .propose newViews leaf leader once read enough parent height inRange block
  | skip => exact .skip
  | prepare leaf high proposal once valid safe => exact .prepare leaf high proposal once valid safe
  | certify p ord qc leader formed => exact .certify p ord qc leader formed
  | preCommit qc seen once staged => exact .preCommit qc seen once staged
  | commit qc seen once staged => exact .commit qc seen once staged
  | decide qc staged => exact .decide qc staged
  | execute decided nh node r' known path found next valid applied =>
    exact .execute decided nh node r' known path found next valid applied
  | kick leafHash node block input fresh idle found read cmd start =>
    exact .kick leafHash node block input fresh idle found read cmd start

/-- The vote flags of a node survive an update of one view that sets no flag back. -/
theorem voted_update {g : Nat → ViewData C} {v : Nat} {d : ViewData C}
    (h : ∀ p, (g v).voted p = true → d.voted p = true) :
    ∀ v' p, (g v').voted p = true → (Function.update g v d v').voted p = true := by
  intro v' p hv
  rw [Function.update_apply]
  split
  · subst v'
    exact h p hv
  · exact hv

theorem Move.casts (hm : Move keys arrives w r r') : Quiet r r' ∨
    ∃ p nh held, Casts r p nh held ∧ (r.rs.viewData r.rs.view).voted p = false ∧
      r' = castVote w p nh { r with rs := held } := by
  cases hm with
  | stash => exact Or.inl ⟨fun _ _ h => h, Nat.le_refl _, voted_update fun _ h => h, rfl, rfl⟩
  | receive ty p view qc =>
    refine Or.inl ⟨fun _ _ h => h, ?_, ?_, ?_, ?_⟩ <;>
      simp only [withRs_rs, receiveQc_eq, stageQc_eq]
    · exact Nat.le_refl _
    · exact voted_update fun _ h => h
    · rfl
    · rfl
  | count => exact Or.inl ⟨fun _ _ h => h, Nat.le_refl _, voted_update fun _ h => h, rfl, rfl⟩
  | collect => exact Or.inl ⟨fun _ _ h => h, Nat.le_refl _, voted_update fun _ h => h, rfl, rfl⟩
  | ingest => exact Or.inl ⟨fun _ _ h => h, Nat.le_refl _, fun _ _ h => h, rfl, rfl⟩
  | enter timeout =>
    rw [enterNewView_eq]
    refine Or.inl ⟨?_, Nat.le_succ _, voted_update fun _ h => h, rfl, rfl⟩
    intro d verdict h
    dsimp only at h
    split at h <;> simpa using h
  | propose =>
    refine Or.inl ⟨?_, Nat.le_refl _, ?_, rfl, rfl⟩
    · intro d verdict h
      simpa [sendProposal] using h
    · refine fun v p hv => voted_update ?_ v p (voted_update ?_ v p hv)
      all_goals exact fun _ h => h
  | skip =>
    refine Or.inl ⟨fun _ _ h => h, Nat.le_refl _, voted_update ?_, rfl, rfl⟩
    intro p hp
    dsimp only
    rw [Function.update_apply]
    split
    · rfl
    · exact hp
  | prepare leaf high proposal once valid safe =>
    exact Or.inr ⟨_, _, _, .prepare leaf high proposal valid safe, once, rfl⟩
  | certify p ord qc =>
    refine Or.inl ⟨?_, ?_, ?_, ?_, ?_⟩
    · intro d verdict h
      simpa using h
    all_goals simp only [emit_rs, withRs_rs, stageQc_eq]
    · exact Nat.le_refl _
    · refine fun v p hv => voted_update ?_ v p (voted_update ?_ v p hv)
      all_goals exact fun _ h => h
    · rfl
    · rfl
  | preCommit qc seen once staged => exact Or.inr ⟨_, _, _, .preCommit qc staged, once, rfl⟩
  | commit qc seen once staged => exact Or.inr ⟨_, _, _, .commit qc staged, once, rfl⟩
  | decide => exact Or.inl ⟨fun _ _ h => h, Nat.le_refl _, fun _ _ h => h, rfl, rfl⟩
  | execute decided nh node r' known path found next valid applied =>
    obtain ⟨hrs, _, heff⟩ := applyNode_frame applied
    refine Or.inl ⟨?_, ?_, ?_, ?_, ?_⟩
    · intro d verdict h
      simpa [heff] using h
    all_goals rw [hrs]
    exact fun _ _ h => h
  | kick =>
    refine Or.inl ⟨?_, Nat.le_refl _, fun _ _ h => h, rfl, rfl⟩
    intro d verdict h
    simpa [submitValidation] using h

/-- A cast vote is the one new signature. -/
theorem castVote_signs {p : Phase} {nh : C.Hash} {d : VoteDigest C.Hash} {verdict : Option Bool} :
    .sign d verdict ∈ (castVote w p nh r).effects ↔ .sign d verdict ∈ r.effects ∨
      (d = ⟨msgTypeOf p, r.rs.view, nh⟩ ∧ verdict = r.rs.validationResult nh) := by
  rw [castVote_eq]
  dsimp only
  split <;> simp [voteDigest]

end

/-- What a node's own votes owe to the certificates it has seen. -/
structure Voter (good : QC C → Prop) (r : Replica C) : Prop where
  cast : ∀ ty v nh, r.Signed ⟨ty, v, nh⟩ →
    v ≤ r.rs.view ∧ ∃ p, ty = msgTypeOf p ∧ (r.rs.viewData v).voted p = true
  single : ∀ ty v nh nh', r.Signed ⟨ty, v, nh⟩ → r.Signed ⟨ty, v, nh'⟩ → nh = nh'
  preCommit : ∀ v nh, r.Signed ⟨.preCommit, v, nh⟩ →
    (∃ qc, qc.msgType = .prepare ∧ qc.view = v ∧ qc.nodeHash = nh ∧ good qc) ∧
      ∃ qc, r.rs.prepareQc = some qc ∧ v ≤ qc.view
  commit : ∀ v nh, r.Signed ⟨.commit, v, nh⟩ →
    (∃ qc, qc.msgType = .preCommit ∧ qc.view = v ∧ qc.nodeHash = nh ∧ good qc) ∧
      ∃ qc, r.rs.lockedQc = some qc ∧ v ≤ qc.view
  prepareQc : ∀ qc, r.rs.prepareQc = some qc → qc.view ≤ r.rs.view
  lockedQc : ∀ qc, r.rs.lockedQc = some qc → qc.view ≤ r.rs.view

section
variable {good : QC C → Prop} {r r' : Replica C}

theorem Voter.quiet (h : Voter good r) (hq : Quiet r r') : Voter good r' := by
  have hs : ∀ d, r'.Signed d → r.Signed d := by
    rintro d ⟨verdict, hd⟩
    exact ⟨verdict, hq.signs d verdict hd⟩
  refine ⟨?_, ?_, ?_, ?_, ?_, ?_⟩
  · intro ty v nh hd
    obtain ⟨hv, p, ht, hvoted⟩ := h.cast ty v nh (hs _ hd)
    exact ⟨hv.trans hq.view, p, ht, hq.voted v p hvoted⟩
  · intro ty v nh nh' hd hd'
    exact h.single ty v nh nh' (hs _ hd) (hs _ hd')
  · intro v nh hd
    rw [hq.prepareQc]
    exact h.preCommit v nh (hs _ hd)
  · intro v nh hd
    rw [hq.lockedQc]
    exact h.commit v nh (hs _ hd)
  · intro qc hqc
    rw [hq.prepareQc] at hqc
    exact (h.prepareQc qc hqc).trans hq.view
  · intro qc hqc
    rw [hq.lockedQc] at hqc
    exact (h.lockedQc qc hqc).trans hq.view

theorem msgTypeOf_inj {p q : Phase} (h : msgTypeOf p = msgTypeOf q) : p = q := by
  cases p <;> cases q <;> cases h <;> rfl

theorem castVote_signed {w : Wiring C} {p : Phase} {nh : C.Hash} {d : VoteDigest C.Hash} :
    (castVote w p nh r).Signed d ↔ r.Signed d ∨ d = ⟨msgTypeOf p, r.rs.view, nh⟩ := by
  constructor
  · rintro ⟨verdict, hs⟩
    rcases castVote_signs.mp hs with hs | ⟨hd, _⟩
    · exact Or.inl ⟨verdict, hs⟩
    · exact Or.inr hd
  · rintro (⟨verdict, hs⟩ | hd)
    · exact ⟨verdict, castVote_signs.mpr (Or.inl hs)⟩
    · exact ⟨_, castVote_signs.mpr (Or.inr ⟨hd, rfl⟩)⟩

/-- A certificate of the current view replaces the held one: no vote so far is
of a later view. -/
theorem Voter.hold_prepare (h : Voter good r) {qc : QC C} (hv : qc.view = r.rs.view) :
    Voter good (r.withRs (holdPrepare qc)) := by
  refine { h with preCommit := ?_, prepareQc := ?_ }
  · intro v nh hs
    refine ⟨(h.preCommit v nh hs).1, qc, rfl, ?_⟩
    rw [hv]
    exact (h.cast _ v nh hs).1
  · rintro _ ⟨⟩
    exact hv.le

theorem Voter.hold_lock (h : Voter good r) {qc : QC C} (hv : qc.view = r.rs.view) :
    Voter good (r.withRs (holdLock qc)) := by
  refine { h with commit := ?_, lockedQc := ?_ }
  · intro v nh hs
    refine ⟨(h.commit v nh hs).1, qc, rfl, ?_⟩
    rw [hv]
    exact (h.cast _ v nh hs).1
  · rintro _ ⟨⟩
    exact hv.le

/-- The one vote of a phase and view, backed by what its phase asks for. -/
theorem Voter.vote (h : Voter good r) {w : Wiring C} {p : Phase} {nh : C.Hash}
    (once : (r.rs.viewData r.rs.view).voted p = false)
    (hpre : p = .preCommit → ∃ qc, r.rs.prepareQc = some qc ∧ qc.msgType = .prepare ∧
      qc.view = r.rs.view ∧ qc.nodeHash = nh ∧ good qc)
    (hcom : p = .commit → ∃ qc, r.rs.lockedQc = some qc ∧ qc.msgType = .preCommit ∧
      qc.view = r.rs.view ∧ qc.nodeHash = nh ∧ good qc) :
    Voter good (castVote w p nh r) := by
  have hfresh : ∀ nh', ¬ r.Signed ⟨msgTypeOf p, r.rs.view, nh'⟩ := by
    intro nh' hs
    obtain ⟨_, p', ht, hvoted⟩ := h.cast _ _ _ hs
    cases msgTypeOf_inj ht
    simp [once] at hvoted
  have hrs : (castVote w p nh r).rs.view = r.rs.view ∧
      (castVote w p nh r).rs.prepareQc = r.rs.prepareQc ∧
      (castVote w p nh r).rs.lockedQc = r.rs.lockedQc := by
    rw [castVote_eq]
    exact ⟨rfl, rfl, rfl⟩
  refine ⟨?_, ?_, ?_, ?_, ?_, ?_⟩
  · intro ty v nh' hs
    rw [hrs.1]
    rcases castVote_signed.mp hs with hs | hd
    · obtain ⟨hv, p', ht, hvoted⟩ := h.cast ty v nh' hs
      refine ⟨hv, p', ht, ?_⟩
      rw [castVote_eq]
      refine voted_update (fun q hq => ?_) v p' hvoted
      dsimp only
      rw [Function.update_apply]
      split
      · rfl
      · exact hq
    · cases hd
      refine ⟨Nat.le_refl _, p, rfl, ?_⟩
      rw [castVote_eq]
      simp [vdMut_viewData]
  · intro ty v a b ha hb
    rcases castVote_signed.mp ha with ha | ha <;> rcases castVote_signed.mp hb with hb | hb
    · exact h.single ty v a b ha hb
    · cases hb
      exact absurd ha (hfresh a)
    · cases ha
      exact absurd hb (hfresh b)
    · cases ha
      cases hb
      rfl
  · intro v nh' hs
    rw [hrs.2.1]
    rcases castVote_signed.mp hs with hs | hd
    · exact h.preCommit v nh' hs
    · injection hd with ht hv hn
      cases msgTypeOf_inj (q := .preCommit) ht.symm
      obtain ⟨qc, hqc, htype, hview, hnode, hg⟩ := hpre rfl
      subst hv hn
      exact ⟨⟨qc, htype, hview, hnode, hg⟩, qc, hqc, hview.ge⟩
  · intro v nh' hs
    rw [hrs.2.2]
    rcases castVote_signed.mp hs with hs | hd
    · exact h.commit v nh' hs
    · injection hd with ht hv hn
      cases msgTypeOf_inj (q := .commit) ht.symm
      obtain ⟨qc, hqc, htype, hview, hnode, hg⟩ := hcom rfl
      subst hv hn
      exact ⟨⟨qc, htype, hview, hnode, hg⟩, qc, hqc, hview.ge⟩
  · rw [hrs.1, hrs.2.1]
    exact h.prepareQc
  · rw [hrs.1, hrs.2.2]
    exact h.lockedQc

theorem Voter.move {keys : Nat → Option C.Key} {arrives : Wire C → Prop} {w : Wiring C} {n : Nat}
    {vote : Phase → Nat → Nat → C.Hash → C.Sig → Prop} (h : Voter good r)
    (hh : Holds n good vote r) (hm : Move keys arrives w r r') : Voter good r' := by
  rcases hm.casts with hq | ⟨p, nh, held, hc, once, rfl⟩
  · exact h.quiet hq
  · cases hc with
    | prepare leaf high proposal valid safe =>
      exact h.vote once (fun hp => by cases hp) (fun hp => by cases hp)
    | preCommit qc staged =>
      obtain ⟨ht, hv, hg⟩ := hh.staged _ _ _ staged
      exact (h.hold_prepare hv).vote once (fun _ => ⟨qc, rfl, ht, hv, rfl, hg⟩)
        (fun hp => by cases hp)
    | commit qc staged =>
      obtain ⟨ht, hv, hg⟩ := hh.staged _ _ _ staged
      exact (h.hold_lock hv).vote once (fun hp => by cases hp)
        (fun _ => ⟨qc, rfl, ht, hv, rfl, hg⟩)

theorem start_unsigned (w : Wiring C) (n : Nat) (d : VoteDigest C.Hash) :
    ¬ (startProtocol w (bootReplica w n)).Signed d := by
  rintro ⟨verdict, hs⟩
  rw [startProtocol, enterNewView_eq] at hs
  dsimp only at hs
  split at hs <;> simp [bootReplica] at hs

theorem Voter.start {w : Wiring C} {n : Nat} :
    Voter (C := C) good (startProtocol w (bootReplica w n)) := by
  have hnone := start_unsigned w n
  refine ⟨fun _ _ _ hs => absurd hs (hnone _), fun _ _ _ _ hs => absurd hs (hnone _),
    fun _ _ hs => absurd hs (hnone _), fun _ _ hs => absurd hs (hnone _), ?_, ?_⟩
  all_goals
    intro qc hq
    rw [startProtocol, enterNewView_eq] at hq
    cases hq

theorem Voter.mono {good' : QC C → Prop} (h : Voter good r) (hg : ∀ qc, good qc → good' qc) :
    Voter good' r := by
  refine { h with preCommit := ?_, commit := ?_ }
  · intro v nh hs
    obtain ⟨⟨qc, ht, hv, hn, hq⟩, hheld⟩ := h.preCommit v nh hs
    exact ⟨⟨qc, ht, hv, hn, hg qc hq⟩, hheld⟩
  · intro v nh hs
    obtain ⟨⟨qc, ht, hv, hn, hq⟩, hheld⟩ := h.commit v nh hs
    exact ⟨⟨qc, ht, hv, hn, hg qc hq⟩, hheld⟩

end

def Effect.ballot : Effect C → Option (VoteDigest C.Hash)
  | .sign digest _ => some digest
  | _ => none

/-- The votes a node has signed, in the order of its run. -/
def Replica.ballots (r : Replica C) : List (VoteDigest C.Hash) := r.effects.filterMap Effect.ballot

section
variable {r : Replica C}

theorem mem_ballots {d : VoteDigest C.Hash} : d ∈ r.ballots ↔ r.Signed d := by
  simp only [Replica.ballots, Replica.Signed, List.mem_filterMap]
  constructor
  · rintro ⟨e, he, hd⟩
    cases e with
    | sign digest verdict =>
      cases hd
      exact ⟨verdict, he⟩
    | _ => cases hd
  · rintro ⟨verdict, he⟩
    exact ⟨_, he, rfl⟩

theorem castVote_ballots (w : Wiring C) (p : Phase) (nh : C.Hash) (r : Replica C) :
    (castVote w p nh r).ballots = r.ballots ++ [⟨msgTypeOf p, r.rs.view, nh⟩] := by
  rw [castVote_eq]
  unfold Replica.ballots
  dsimp only
  split <;> simp [Effect.ballot, voteDigest]

theorem enterNewView_ballots (w : Wiring C) (v : Nat) (r : Replica C) :
    (enterNewView w v r).ballots = r.ballots := by
  rw [enterNewView_eq]
  unfold Replica.ballots
  dsimp only
  split <;> simp [Effect.ballot]

end
end ZkStf
