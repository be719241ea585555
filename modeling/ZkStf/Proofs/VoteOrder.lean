import ZkStf.Proofs.Wraparound

namespace ZkStf
open ZkStf.Basis
open ZkStf.Basis.Ballots (Phase)
open Relation (ReflTransGen)
variable {C : Crypto}

/-- What at most one vote may be signed for. -/
def VoteDigest.slot (d : VoteDigest C.Hash) : MsgType × Nat := (d.msgType, d.view)

section
variable {keys : Nat → Option C.Key} {arrives : Wire C → Prop} {w : Wiring C} {r r' : Replica C}

/-- A move signs nothing, or casts the one vote it is about. -/
theorem Move.ballots_cases (hm : Move keys arrives w r r') : r'.ballots = r.ballots ∨
    ∃ p nh held, Casts r p nh held ∧ (r.rs.viewData r.rs.view).voted p = false ∧
      r' = castVote w p nh { r with rs := held } := by
  cases hm with
  | enter timeout => exact Or.inl (enterNewView_ballots w _ _)
  | propose => exact Or.inl (by simp [Replica.ballots, sendProposal, Effect.ballot])
  | prepare leaf high proposal once valid safe =>
    exact Or.inr ⟨_, _, _, .prepare leaf high proposal valid safe, once, rfl⟩
  | certify => exact Or.inl (by simp [Replica.ballots, Effect.ballot])
  | preCommit qc seen once staged => exact Or.inr ⟨_, _, _, .preCommit qc staged, once, rfl⟩
  | commit qc seen once staged => exact Or.inr ⟨_, _, _, .commit qc staged, once, rfl⟩
  | execute decided nh node r' known path found next valid applied =>
    exact Or.inl (by simp [Replica.ballots, (applyNode_frame applied).2.2, Effect.ballot])
  | kick => exact Or.inl (by simp [Replica.ballots, submitValidation, Effect.ballot])
  | _ => exact Or.inl rfl

theorem Move.votes_cases (hm : Move keys arrives w r r') :
    (Quiet r r' ∧ r'.ballots = r.ballots) ∨
    ∃ p nh held, Casts r p nh held ∧ (r.rs.viewData r.rs.view).voted p = false ∧
      r' = castVote w p nh { r with rs := held } := by
  rcases hm.casts with hq | hcast
  · rcases hm.ballots_cases with hsame | hcast
    · exact Or.inl ⟨hq, hsame⟩
    · exact Or.inr hcast
  · exact Or.inr hcast

theorem Backstage.ballots (h : Backstage r r') : r'.ballots = r.ballots := by
  obtain ⟨_, new, heff, hnew⟩ := h
  have hnone : new.filterMap Effect.ballot = [] := by
    apply List.filterMap_eq_nil_iff.mpr
    intro e he
    rcases hnew e he with ⟨height, nh, rfl⟩ | ⟨req, input, rfl⟩
    · rfl
    · rfl
  unfold Replica.ballots
  rw [heff, List.filterMap_append, hnone, List.append_nil]

theorem Casts.view {p : Phase} {nh : C.Hash} {held : ReplicaState C} (h : Casts r p nh held) :
    held.view = r.rs.view := by
  cases h with
  | prepare => rfl
  | preCommit => rfl
  | commit => rfl

theorem Casts.viewData {p : Phase} {nh : C.Hash} {held : ReplicaState C} (h : Casts r p nh held) :
    held.viewData = r.rs.viewData := by
  cases h with
  | prepare => rfl
  | preCommit => rfl
  | commit => rfl

/-- The votes that were signed on the way from one state to another, where the
node stayed in its view if there are any. -/
def SignsInView (r r' : Replica C) : Prop :=
  ∃ new, r'.ballots = r.ballots ++ new ∧
    ∀ d ∈ new, d.view = r.rs.view ∧ d.view = r'.rs.view

theorem SignsInView.of_same (h : r'.ballots = r.ballots) : SignsInView r r' :=
  ⟨[], by rw [h, List.append_nil], by simp⟩

theorem Move.signs (hm : Move keys arrives w r r') : SignsInView r r' := by
  rcases hm.ballots_cases with h | ⟨p, nh, held, hc, _, rfl⟩
  · exact .of_same h
  · refine ⟨_, castVote_ballots w p nh _, ?_⟩
    intro d hd
    cases List.mem_singleton.mp hd
    refine ⟨hc.view, ?_⟩
    rw [castVote_eq]
    rfl

theorem Turn.signs (h : Turn keys arrives w r r') : SignsInView r r' := by
  have hview := h.view
  obtain ⟨mid, hmid, hchores⟩ := h
  have hsame := (chores_backstage hchores).ballots
  rcases hmid with rfl | ⟨hm, hv⟩
  · exact .of_same hsame
  · obtain ⟨new, hnew, hd⟩ := hm.signs
    refine ⟨new, hsame.trans hnew, ?_⟩
    intro d hmem
    rw [hview]
    exact ⟨(hd d hmem).1, (hd d hmem).1⟩

theorem step_signs {ev : Option (Event C)} {m m' : Machine C} (h : Machine.Step keys w ev m m') :
    SignsInView m.replica m'.replica := by
  cases h with
  | event ev r r' running ran =>
    have hcases : Turn keys (fun _ => True) w r r' ∨ _ := event_inv ev ran (by simp)
    rcases hcases with h | ⟨timeout, next, _, _, rfl⟩
    · exact h.signs
    · exact .of_same (enterNewView_ballots w _ _)
  | rule ord rule rest r r' ran =>
    by_cases hne : rule = .replicaDecide
    · subst rule
      rcases replica_decide_inv ran with ⟨rfl, _⟩ | ⟨qc, mid, next, _, _, _, hchores, _, _, rfl⟩
      · exact .of_same rfl
      · exact .of_same ((enterNewView_ballots w _ _).trans (chores_backstage hchores).ballots)
    · have hturn : Turn keys (fun _ => True) w r r' := rule_turn rule ran hne
      exact hturn.signs

end

/-- Anything may be held and counted. -/
theorem feeds_any {keys : Nat → Option C.Key} {arrives : Wire C → Prop} {w : Wiring C} {n : Nat}
    {effects : List (Effect C)} :
    Feeds keys arrives w n (fun _ => True) (fun _ _ _ _ _ => True) effects :=
  ⟨by simp, by simp, by simp, by simp⟩

/-- From a vote on a certificate is held, and one of the view of the vote is the one
that vote was cast on. -/
def Backed (q : Phase) (held : Option (QC C)) (r : Replica C) : Prop :=
  ∀ v nh, r.Signed ⟨msgTypeOf q, v, nh⟩ →
    ∃ qc, held = some qc ∧ (qc.view = v → qc.nodeHash = nh)

/-- The votes of a node, and the certificates it holds because of them. -/
structure VoteLog (n : Nat) (r : Replica C) : Prop where
  holds : Holds n (fun _ => True) (fun _ _ _ _ _ => True) r
  cast : ∀ ty v nh, r.Signed ⟨ty, v, nh⟩ →
    ∃ p, ty = msgTypeOf p ∧ (r.rs.viewData v).voted p = true
  once : (r.ballots.map VoteDigest.slot).Nodup
  prepared : Backed .preCommit r.rs.prepareQc r
  locked : Backed .commit r.rs.lockedQc r

section
variable {n : Nat} {keys : Nat → Option C.Key} {arrives : Wire C → Prop} {w : Wiring C}
  {p q : Phase} {held : Option (QC C)} {r r' : Replica C}

theorem Backed.other (h : Backed q held r) (hne : p ≠ q) (nh : C.Hash) :
    Backed q held (castVote w p nh r) := by
  intro v nh' hs
  rcases castVote_signed.mp hs with hs | hd
  · exact h v nh' hs
  · injection hd with ht
    exact absurd (msgTypeOf_inj ht).symm hne

theorem Backed.own {qc : QC C} (hfresh : (msgTypeOf q, r.rs.view) ∉ r.ballots.map VoteDigest.slot)
    (hv : qc.view = r.rs.view) : Backed q (some qc) (castVote w q qc.nodeHash r) := by
  intro v nh hs
  refine ⟨qc, rfl, ?_⟩
  rintro rfl
  rcases castVote_signed.mp hs with hs | hd
  · rw [hv] at hs
    exact absurd (List.mem_map.mpr ⟨_, mem_ballots.mpr hs, rfl⟩) hfresh
  · injection hd with _ _ hn
    exact hn.symm

/-- The first vote of a phase in the current view finds no vote in its slot. -/
theorem VoteLog.fresh_slot (h : VoteLog n r) (once : (r.rs.viewData r.rs.view).voted p = false) :
    (msgTypeOf p, r.rs.view) ∉ r.ballots.map VoteDigest.slot := by
  intro hmem
  obtain ⟨⟨ty, v, nh⟩, hd, hslot⟩ := List.mem_map.mp hmem
  cases hslot
  obtain ⟨q, ht, hvoted⟩ := h.cast _ _ _ (mem_ballots.mp hd)
  cases msgTypeOf_inj ht
  simp [once] at hvoted

/-- The two clauses on held certificates survive a vote: it is of another phase,
or cast on the very certificate that is held from then on. -/
theorem VoteLog.backed (h : VoteLog n r) {nh : C.Hash} {rs : ReplicaState C}
    (hc : Casts r p nh rs) (hfresh : (msgTypeOf p, r.rs.view) ∉ r.ballots.map VoteDigest.slot) :
    Backed .preCommit rs.prepareQc (castVote w p nh { r with rs := rs }) ∧
      Backed .commit rs.lockedQc (castVote w p nh { r with rs := rs }) := by
  cases hc with
  | prepare leaf high proposal valid safe =>
    exact ⟨h.prepared.other (by simp) _, h.locked.other (by simp) _⟩
  | preCommit qc staged =>
    refine ⟨Backed.own hfresh (h.holds.staged _ _ _ staged).2.1, ?_⟩
    apply Backed.other _ (by simp)
    exact h.locked
  | commit qc staged =>
    refine ⟨?_, Backed.own hfresh (h.holds.staged _ _ _ staged).2.1⟩
    apply Backed.other _ (by simp)
    exact h.prepared

/-- Where no vote is cast and no flag taken back, the log stays as it is. -/
theorem VoteLog.same (h : VoteLog n r)
    (hholds : Holds n (fun _ => True) (fun _ _ _ _ _ => True) r') (hsame : r'.ballots = r.ballots)
    (hvoted : ∀ v p, (r.rs.viewData v).voted p = true → (r'.rs.viewData v).voted p = true)
    (hprepare : r'.rs.prepareQc = r.rs.prepareQc) (hlocked : r'.rs.lockedQc = r.rs.lockedQc) :
    VoteLog n r' := by
  have hsigned : ∀ d, r'.Signed d → r.Signed d := by
    intro d hd
    rw [← mem_ballots, hsame] at hd
    exact mem_ballots.mp hd
  refine ⟨hholds, ?_, by rw [hsame]; exact h.once, ?_, ?_⟩
  · intro ty v nh hs
    obtain ⟨p, ht, hp⟩ := h.cast ty v nh (hsigned _ hs)
    exact ⟨p, ht, hvoted v p hp⟩
  · rw [hprepare]
    exact fun v nh hs => h.prepared v nh (hsigned _ hs)
  · rw [hlocked]
    exact fun v nh hs => h.locked v nh (hsigned _ hs)

theorem VoteLog.move (h : VoteLog n r) (hm : Move keys arrives w r r') : VoteLog n r' := by
  have hholds : Holds n _ _ r' := h.holds.move feeds_any hm
  rcases hm.votes_cases with ⟨hq, hsame⟩ | ⟨p, nh, rs, hc, once, rfl⟩
  · exact h.same hholds hsame hq.voted hq.prepareQc hq.lockedQc
  · have hfresh := h.fresh_slot once
    obtain ⟨hprepared, hlocked⟩ := h.backed (w := w) hc hfresh
    have hview := hc.view
    have hdata := hc.viewData
    obtain ⟨hproceeds, _, hvoted⟩ := castVote_proceeds (w := w) p nh { r with rs := rs }
    refine ⟨hholds, ?_, ?_, ?_, ?_⟩
    · intro ty v nh' hs
      rcases castVote_signed.mp hs with hs | hd
      · obtain ⟨q, ht, hq⟩ := h.cast ty v nh' hs
        refine ⟨q, ht, ?_⟩
        rw [← hdata] at hq
        by_cases hv : v = rs.view
        · subst v
          exact hproceeds.voted q hq
        · rw [hproceeds.others v hv]
          exact hq
      · cases hd
        exact ⟨p, rfl, hvoted⟩
    · rw [castVote_ballots, List.map_append]
      apply List.Nodup.append h.once (List.nodup_singleton _)
      simpa [hview, VoteDigest.slot] using hfresh
    · rw [castVote_eq] at hprepared ⊢
      exact hprepared
    · rw [castVote_eq] at hlocked ⊢
      exact hlocked

/-- Entering a view casts no vote, whichever view it is. -/
theorem VoteLog.enter (h : VoteLog n r) (v timeout : Nat) :
    VoteLog n (enterNewView w v (r.withRs (fun rs =>
      { rs with timeoutIntervalMs := timeout }))) := by
  have hheld : Holds n (fun _ => True) (fun _ _ _ _ _ => True)
      (r.withRs (fun rs => { rs with timeoutIntervalMs := timeout })) := { h.holds with }
  refine h.same (hheld.enter v) (enterNewView_ballots ..) ?_ ?_ ?_
  all_goals rw [enterNewView_eq]
  · exact voted_update fun _ hp => hp
  · rfl
  · rfl

theorem start_ballots (w : Wiring C) (n : Nat) :
    (startProtocol w (bootReplica w n)).ballots = [] := by
  apply List.eq_nil_iff_forall_not_mem.mpr
  intro d hd
  exact start_unsigned w n d (mem_ballots.mp hd)

theorem VoteLog.start : VoteLog (C := C) n (startProtocol w (bootReplica w n)) := by
  have hnone := start_unsigned w n
  refine ⟨.start, ?_, by simp [start_ballots], ?_, ?_⟩
  · exact fun ty v nh hs => absurd hs (hnone _)
  · exact fun v nh hs => absurd hs (hnone _)
  · exact fun v nh hs => absurd hs (hnone _)

theorem runs_voteLog {m : Machine C} (hr : Machine.Runs w (.start w n) m) :
    VoteLog n m.replica :=
  runs_invariant .start (fun _ _ _ h hm => h.move hm) (fun _ _ _ h => h.enter 0 _) hr

/-- The log of a node whose view never fell: views in order, nothing ahead. -/
structure Climbing (n : Nat) (r : Replica C) : Prop extends VoteLog n r where
  voter : Voter (fun _ => True) r
  ordered : (r.ballots.map VoteDigest.view).Pairwise (· ≤ ·)

theorem Climbing.view_le (h : Climbing n r) :
    ∀ v ∈ r.ballots.map VoteDigest.view, v ≤ r.rs.view := by
  intro v hv
  obtain ⟨d, hd, rfl⟩ := List.mem_map.mp hv
  exact (h.voter.cast _ _ _ (mem_ballots.mp hd)).1

theorem Climbing.move (h : Climbing n r) (hm : Move keys arrives w r r') : Climbing n r' := by
  refine ⟨h.toVoteLog.move hm, h.voter.move h.holds hm, ?_⟩
  rcases hm.votes_cases with ⟨_, hsame⟩ | ⟨p, nh, rs, hc, once, rfl⟩
  · rw [hsame]
    exact h.ordered
  · rw [castVote_ballots, List.map_append]
    refine List.pairwise_append.mpr ⟨h.ordered, List.pairwise_singleton _ _, ?_⟩
    intro v hv v' hv'
    cases List.mem_singleton.mp hv'
    exact (h.view_le v hv).trans hc.view.ge

theorem reach_climbing {m : Machine C} (hr : Machine.Reach w n m) : Climbing n m.replica :=
  reach_invariant ⟨.start, .start, by simp [start_ballots]⟩ (fun _ _ _ h hm => h.move hm) hr

/-- A certificate stays, or is replaced by one of a view that is not lower. -/
def Rises (old new : Option (QC C)) : Prop :=
  ∀ qc, old = some qc → ∃ qc', new = some qc' ∧ qc.view ≤ qc'.view

theorem Rises.of_eq {old new : Option (QC C)} (h : new = old) : Rises old new :=
  fun qc hqc => ⟨qc, h.trans hqc, Nat.le_refl _⟩

theorem Rises.trans {a b c : Option (QC C)} (hab : Rises a b) (hbc : Rises b c) : Rises a c := by
  intro qc hqc
  obtain ⟨mid, hmid, hle⟩ := hab qc hqc
  obtain ⟨last, hlast, hle'⟩ := hbc mid hmid
  exact ⟨last, hlast, hle.trans hle'⟩

theorem Move.rises (hm : Move keys arrives w r r') (h : Climbing n r) :
    Rises r.rs.prepareQc r'.rs.prepareQc ∧ Rises r.rs.lockedQc r'.rs.lockedQc := by
  rcases hm.casts with hq | ⟨p, nh, rs, hc, once, rfl⟩
  · exact ⟨.of_eq hq.prepareQc, .of_eq hq.lockedQc⟩
  · rw [castVote_eq]
    cases hc with
    | prepare leaf high proposal valid safe => exact ⟨.of_eq rfl, .of_eq rfl⟩
    | preCommit qc staged =>
      refine ⟨?_, .of_eq rfl⟩
      intro old hold
      exact ⟨qc, rfl, (h.voter.prepareQc old hold).trans (h.holds.staged _ _ _ staged).2.1.ge⟩
    | commit qc staged =>
      refine ⟨.of_eq rfl, ?_⟩
      intro old hold
      exact ⟨qc, rfl, (h.voter.lockedQc old hold).trans (h.holds.staged _ _ _ staged).2.1.ge⟩

theorem moves_rise (hm : Moves keys arrives w r r') (h : Climbing n r) :
    Climbing n r' ∧ Rises r.rs.prepareQc r'.rs.prepareQc ∧ Rises r.rs.lockedQc r'.rs.lockedQc := by
  induction hm with
  | refl => exact ⟨h, .of_eq rfl, .of_eq rfl⟩
  | tail _ hm ih =>
    obtain ⟨hmid, hprepare, hlocked⟩ := ih
    obtain ⟨hprepare', hlocked'⟩ := hm.rises hmid
    exact ⟨hmid.move hm, hprepare.trans hprepare', hlocked.trans hlocked'⟩

/-- The states a node can be in later on while its view does not pass `u64::MAX`. -/
def Machine.Climbs (w : Wiring C) : Machine C → Machine C → Prop :=
  ReflTransGen (fun m m' =>
    (∃ keys ev, Machine.Step keys w ev m m') ∧ ¬ Wraps m.replica m'.replica)

theorem climbs_rise {m m' : Machine C} (hrun : Machine.Climbs w m m') (h : Climbing n m.replica) :
    Climbing n m'.replica ∧ Rises m.replica.rs.prepareQc m'.replica.rs.prepareQc ∧
      Rises m.replica.rs.lockedQc m'.replica.rs.lockedQc := by
  induction hrun with
  | refl => exact ⟨h, .of_eq rfl, .of_eq rfl⟩
  | tail _ hstep ih =>
    obtain ⟨⟨keys, ev, hstep⟩, hbound⟩ := hstep
    have hm : Moves keys (fun _ => True) w _ _ := step_moves hstep hbound (by simp)
    obtain ⟨hmid, hprepare, hlocked⟩ := ih
    obtain ⟨hlog, hprepare', hlocked'⟩ := moves_rise hm hmid
    exact ⟨hlog, hprepare.trans hprepare', hlocked.trans hlocked'⟩

/-- One vote per phase and view: no two votes of a run share their slot, and each
is of the view the node is in while it signs. As long as no view passes `u64::MAX`
their views never fall. -/
theorem one_vote_per_slot {m : Machine C} (hr : Machine.Runs w (.start w n) m) :
    (m.replica.ballots.map VoteDigest.slot).Nodup ∧
      (∀ keys ev m', Machine.Step keys w ev m m' → SignsInView m.replica m'.replica) ∧
      (Machine.Reach w n m → (m.replica.ballots.map VoteDigest.view).Pairwise (· ≤ ·)) :=
  ⟨(runs_voteLog hr).once, fun _ _ _ hstep => step_signs hstep,
    fun hbounded => (reach_climbing hbounded).ordered⟩

theorem quartet_votes_once : ∃ s : System Quartet.crypto,
    System.Reach Quartet.cluster Quartet.cluster.Authentic s ∧
      (s 1).replica.ballots = [⟨.prepare, 1, .inl 1⟩, ⟨.preCommit, 1, .inl 1⟩,
        ⟨.commit, 1, .inl 1⟩] ∧
      ((s 1).replica.ballots.map VoteDigest.slot).Nodup ∧
      ((s 1).replica.ballots.map VoteDigest.view).Pairwise (· ≤ ·) := by
  have hplay : (System.play Quartet.cluster Quartet.cluster.Authentic Quartet.schedule
      (System.start Quartet.cluster)).any (fun s => (s 1).replica.ballots ==
        [⟨.prepare, 1, .inl 1⟩, ⟨.preCommit, 1, .inl 1⟩, ⟨.commit, 1, .inl 1⟩]) = true := by
    decide +kernel
  obtain ⟨s, hr, hc⟩ := play_exists hplay
  obtain ⟨honce, _, hordered⟩ := one_vote_per_slot (hr.machine 1).runs
  exact ⟨s, hr, by simpa using hc, honce, hordered (hr.machine 1)⟩

/-- A build without overflow checks votes in view `u64::MAX`, then in view 0. -/
theorem vote_views_fall : ∃ m,
    Machine.Runs (Quartet.unchecked.wiring 1) (.start (Quartet.unchecked.wiring 1) 4) m ∧
      m.replica.ballots.map VoteDigest.view = [2 ^ 64 - 1, 0] ∧
      ¬ (m.replica.ballots.map VoteDigest.view).Pairwise (· ≤ ·) := by
  obtain ⟨r, r', hr, hrun, _, _, _, hballots⟩ := Quartet.votes_again
  have hviews : r'.ballots.map VoteDigest.view = [2 ^ 64 - 1, 0] := by
    rw [hballots]
    rfl
  refine ⟨⟨r', []⟩, hr.trans hrun, hviews, ?_⟩
  rw [hviews]
  simp

/-- Prepare certificates and locks are of their own type, and from a vote on one is
held, with the node voted for if it is of the view of the vote. As long as no view
passes `u64::MAX` they only move up, are never ahead of the node's view, and are at
least as high as every vote. -/
theorem certificates_move_up {m : Machine C} (hr : Machine.Runs w (.start w n) m) :
    (∀ qc, m.replica.rs.prepareQc = some qc → qc.msgType = .prepare) ∧
    (∀ qc, m.replica.rs.lockedQc = some qc → qc.msgType = .preCommit) ∧
    (∀ v nh, m.replica.Signed ⟨.preCommit, v, nh⟩ → ∃ qc, m.replica.rs.prepareQc = some qc ∧
      (qc.view = v → qc.nodeHash = nh)) ∧
    (∀ v nh, m.replica.Signed ⟨.commit, v, nh⟩ → ∃ qc, m.replica.rs.lockedQc = some qc ∧
      (qc.view = v → qc.nodeHash = nh)) ∧
    (Machine.Reach w n m →
      (∀ qc, m.replica.rs.prepareQc = some qc → qc.view ≤ m.replica.rs.view ∧
        ∀ v nh, m.replica.Signed ⟨.preCommit, v, nh⟩ → v ≤ qc.view) ∧
      (∀ qc, m.replica.rs.lockedQc = some qc → qc.view ≤ m.replica.rs.view ∧
        ∀ v nh, m.replica.Signed ⟨.commit, v, nh⟩ → v ≤ qc.view) ∧
      ∀ m', Machine.Climbs w m m' → Rises m.replica.rs.prepareQc m'.replica.rs.prepareQc ∧
        Rises m.replica.rs.lockedQc m'.replica.rs.lockedQc) := by
  have hlog := runs_voteLog hr
  refine ⟨fun qc hqc => (hlog.holds.prepareQc qc hqc).1,
    fun qc hqc => (hlog.holds.lockedQc qc hqc).1, hlog.prepared, hlog.locked, ?_⟩
  intro hbounded
  have hclimbing := reach_climbing hbounded
  refine ⟨?_, ?_, fun m' hrun => (climbs_rise hrun hclimbing).2⟩
  · intro qc hqc
    refine ⟨hclimbing.voter.prepareQc qc hqc, ?_⟩
    intro v nh hs
    obtain ⟨_, qc', hqc', hle⟩ := hclimbing.voter.preCommit v nh hs
    cases hqc.symm.trans hqc'
    exact hle
  · intro qc hqc
    refine ⟨hclimbing.voter.lockedQc qc hqc, ?_⟩
    intro v nh hs
    obtain ⟨_, qc', hqc', hle⟩ := hclimbing.voter.commit v nh hs
    cases hqc.symm.trans hqc'
    exact hle

theorem quartet_locks : ∃ s : System Quartet.crypto,
    System.Reach Quartet.cluster Quartet.cluster.Authentic s ∧
      (s 1).replica.Signed ⟨.commit, 1, .inl 1⟩ ∧
      ∃ qc, (s 1).replica.rs.lockedQc = some qc ∧ (qc.view = 1 → qc.nodeHash = .inl 1) ∧
        1 ≤ qc.view ∧ qc.view ≤ (s 1).replica.rs.view := by
  have hplay : (System.play Quartet.cluster Quartet.cluster.Authentic Quartet.schedule
      (System.start Quartet.cluster)).any (fun s =>
        (s 1).replica.ballots.contains ⟨.commit, 1, .inl 1⟩) = true := by
    decide +kernel
  obtain ⟨s, hr, hc⟩ := play_exists hplay
  have hs : (s 1).replica.Signed ⟨.commit, 1, .inl 1⟩ :=
    mem_ballots.mp (List.contains_iff_mem.mp hc)
  obtain ⟨_, _, _, hlocked, hbounded⟩ := certificates_move_up (hr.machine 1).runs
  obtain ⟨qc, hqc, hhash⟩ := hlocked _ _ hs
  obtain ⟨hview, hvote⟩ := (hbounded (hr.machine 1)).2.1 qc hqc
  exact ⟨s, hr, hs, qc, hqc, hhash, hvote _ _ hs, hview⟩

/-- A build without overflow checks comes to view 0 with the certificate of view
`u64::MAX`, and later replaces it by one of view 0. -/
theorem certificate_left_ahead : ∃ m m' qc qc',
    Machine.Runs (Quartet.unchecked.wiring 1) (.start (Quartet.unchecked.wiring 1) 4) m ∧
      Machine.Runs (Quartet.unchecked.wiring 1) m m' ∧ m.replica.rs.prepareQc = some qc ∧
      m.replica.rs.view < qc.view ∧ m'.replica.rs.prepareQc = some qc' ∧ qc'.view < qc.view := by
  obtain ⟨r, r', hr, hrun, hview, hheld, hheld', _⟩ := Quartet.votes_again
  refine ⟨_, _, _, _, hr, hrun, hheld, ?_, hheld', by decide⟩
  change r.rs.view < 2 ^ 64 - 1
  rw [hview]
  decide

end
end ZkStf
