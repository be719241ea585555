import ZkStf.Proofs.Playback
import ZkStf.Proofs.Resting

namespace ZkStf
open ZkStf.Basis
open ZkStf.Basis.Ballots (Phase)
variable {C : Crypto}

/-- A node that knows no node of the tree and has decided nothing, in a cluster
where it makes no quorum by itself. -/
structure Bare (w : Wiring C) (r : Replica C) : Prop where
  running : ¬ finished w r
  quorum : 2 ≤ r.rs.quorum
  tree : r.rs.tree = .empty
  decided : r.rs.decidedNodes = .empty

/-- Nothing has happened in the current view yet, and too few NEW-VIEWs came along
from the one before it. -/
structure Vacant (r : Replica C) : Prop where
  fresh : r.rs.viewData r.rs.view = .fresh C
  newViews : (r.rs.viewData (r.rs.view - 1)).newViewMsgs.size ≤ 1

section
variable {keys : Nat → Option C.Key} {w : Wiring C} {r r' : Replica C} {ord : Order}

theorem Bare.congr (h : Bare w r) (hlast : r'.rs.lastExecutedHeight = r.rs.lastExecutedHeight)
    (hquorum : r'.rs.quorum = r.rs.quorum) (htree : r'.rs.tree = r.rs.tree)
    (hdecided : r'.rs.decidedNodes = r.rs.decidedNodes) : Bare w r' where
  running := by
    unfold finished
    rw [hlast]
    exact h.running
  quorum := hquorum ▸ h.quorum
  tree := htree.trans h.tree
  decided := hdecided.trans h.decided

theorem Bare.backfill_rests (h : Bare w r) :
    Rule.run w ord r .retryPendingExecute = .ok r ∧
      Rule.run w ord r .tryKickPendingValidations = .ok r := by
  have hnil : ∀ (site : Site) (α : Type), ord.list site ([] : List α) = [] :=
    fun site α => (ord.perm site []).eq_nil
  constructor
  · simp only [Rule.run, retryPendingExecute, h.decided, EntryMap.keys, EntryMap.empty,
      List.map_nil, hnil, executeDecided]
  · simp only [Rule.run, tryKickPendingValidations, h.tree, EntryMap.keys, EntryMap.empty,
      List.map_nil, hnil, kickLeaves]

theorem Bare.rests (h : Bare w r) (hr : Resting w ord r) (rule : Rule) :
    rule.run w ord r = .ok r :=
  hr.rule h.backfill_rests.1 h.backfill_rests.2 rule

/-- A pass in a view where nothing has happened does nothing. -/
theorem Bare.pass (h : Bare w r) (hv : Vacant r) : tryAdvance w ord r = .ok r := by
  have hresting : Resting w ord r := by
    refine ⟨?_, ?_, ?_, ?_, ?_, ?_⟩
    · have hfew := hv.newViews
      have hquorum := h.quorum
      exact Or.inr (Or.inr (Or.inl (by omega)))
    · exact Or.inl (by rw [hv.fresh]; rfl)
    · intro p
      refine Or.inr (Or.inr ?_)
      rw [hv.fresh]
      rintro vote ⟨⟩
    all_goals exact Or.inl (by rw [hv.fresh]; rfl)
  exact rules_rest (fun rule _ => h.rests hresting rule)

/-- What leaving a view by its timer does to such a node. -/
structure TimedOut (w : Wiring C) (next : Nat) (r r' : Replica C) : Prop where
  fired : handleTimer w r.rs.view r = .ok r'
  bare : Bare w r'
  view : r'.rs.view = next
  n : r'.rs.n = r.rs.n
  quorum : r'.rs.quorum = r.rs.quorum
  prepareQc : r'.rs.prepareQc = r.rs.prepareQc
  ballots : r'.ballots = r.ballots
  others : ∀ v, v ≠ r.rs.view → r'.rs.viewData v = r.rs.viewData v
  newViews : (r.rs.viewData r.rs.view).newViewMsgs = .empty →
    (r'.rs.viewData r.rs.view).newViewMsgs.size ≤ 1

theorem Bare.timer {next : Nat} (h : Bare w r)
    (hseen : (r.rs.viewData r.rs.view).seen .commit = false)
    (hnext : addOne w r.rs.view = .ok next) : ∃ r', TimedOut w next r r' := by
  refine ⟨enterNewView w next (r.withRs (fun rs =>
    { rs with timeoutIntervalMs := min (rs.timeoutIntervalMs * 2) (2 ^ 64 - 1) })), ?_⟩
  refine ⟨?_, ?_, enterNewView_view .., ?_, ?_, ?_, enterNewView_ballots .., ?_, ?_⟩
  · simp [handleTimer, hseen, hnext]
  all_goals rw [enterNewView_eq]
  · exact h.congr rfl rfl rfl rfl
  · rfl
  · rfl
  · rfl
  · intro v hv
    simp only [withRs_rs, vdMut_viewData, if_neg hv]
  · intro hnone
    simp only [withRs_rs, vdMut_viewData, ↓reduceIte, hnone]
    split
    · exact Nat.le_refl 1
    · exact Nat.zero_le 1

/-- What a PREPARE certificate of the current view does to such a node. -/
structure Answered (keys : Nat → Option C.Key) (w : Wiring C) (qc : QC C) (r r' : Replica C) :
    Prop where
  ran : (handleEvent keys w r (.message (.phaseQc .preCommit r.rs.view qc
    (r.rs.leaderFor r.rs.view)))).bind (tryAdvance w .asStored) = .ok r'
  bare : Bare w r'
  view : r'.rs.view = r.rs.view
  n : r'.rs.n = r.rs.n
  quorum : r'.rs.quorum = r.rs.quorum
  prepareQc : r'.rs.prepareQc = some qc
  ballots : r'.ballots = r.ballots ++ [⟨.preCommit, r.rs.view, qc.nodeHash⟩]
  undecided : (r'.rs.viewData r.rs.view).seen .commit = false
  others : ∀ v, v ≠ r.rs.view → r'.rs.viewData v = r.rs.viewData v

/-- A node that does not lead its view answers the certificate staged there with
its vote; the other rules find nothing to do. -/
theorem Bare.pass_answers {qc : QC C} (h : Bare w r)
    (hleader : r.rs.leaderFor r.rs.view ≠ w.myId)
    (hnone : (r.rs.viewData r.rs.view).proposal = none)
    (hseen : ∀ p, (r.rs.viewData r.rs.view).seen p = decide (p = .prepare))
    (hvoted : (r.rs.viewData r.rs.view).voted .preCommit = false)
    (hqc : r.rs.staged .prepare r.rs.view = some qc) :
    tryAdvance w ord r = .ok (castVote w .preCommit qc.nodeHash (r.withRs (holdPrepare qc))) := by
  have hcast : replicaPreCommit w r =
      .ok (castVote w .preCommit qc.nodeHash (r.withRs (holdPrepare qc))) := by
    simp [replicaPreCommit, replicaVote, hseen, hvoted, hqc]
  have hbefore : runRules w ord [.leaderPrepare, .replicaPrepare, .leaderPreCommit] r = .ok r := by
    apply rules_rest
    intro rule hrule
    simp only [List.mem_cons, List.not_mem_nil, or_false] at hrule
    rcases hrule with rfl | rfl | rfl
    · exact leaderPrepare_rests (Or.inl hleader)
    · exact replicaPrepare_rests (Or.inl hnone)
    · exact leaderQc_rests (Or.inl hleader)
  obtain ⟨hproceeds, _, honce⟩ :=
    castVote_proceeds (w := w) .preCommit qc.nodeHash (r.withRs (holdPrepare qc))
  have hview : (castVote w .preCommit qc.nodeHash (r.withRs (holdPrepare qc))).rs.view =
      r.rs.view := hproceeds.view
  have hbare : Bare w (castVote w .preCommit qc.nodeHash (r.withRs (holdPrepare qc))) := by
    rw [castVote_eq]
    exact h.congr rfl rfl rfl rfl
  have hfollows : (castVote w .preCommit qc.nodeHash (r.withRs (holdPrepare qc))).rs.leaderFor
      r.rs.view ≠ w.myId := by
    rw [leaderFor_congr hproceeds.n]
    exact hleader
  have hseen' : ∀ p, p ≠ .prepare → ((castVote w .preCommit qc.nodeHash
      (r.withRs (holdPrepare qc))).rs.viewData r.rs.view).seen p = false := by
    intro p hp
    rw [castVote_eq]
    simp [vdMut_viewData, holdPrepare, hseen, hp]
  have hrest : Resting w ord (castVote w .preCommit qc.nodeHash (r.withRs (holdPrepare qc))) := by
    constructor
    · exact Or.inl (by rw [hview]; exact hfollows)
    · exact Or.inl (by rw [hview]; exact hproceeds.proposal.trans hnone)
    · exact fun p => Or.inl (by rw [hview]; exact hfollows)
    · exact Or.inr (Or.inl (by rw [hview]; exact honce))
    · exact Or.inl (by rw [hview]; exact hseen' _ (by simp))
    · exact Or.inl (by rw [hview]; exact hseen' _ (by simp))
  have hsplit : passOrder = [.leaderPrepare, .replicaPrepare, .leaderPreCommit] ++
      ([.replicaPreCommit] ++ passOrder.drop 4) := rfl
  rw [tryAdvance, hsplit, runRules_append, hbefore]
  simp only [Except.bind, List.singleton_append, runRules, Rule.run, hcast]
  exact rules_rest (fun rule _ => hbare.rests hrest rule)

/-- The state after the first certificate of the view came in. -/
def staging (qc : QC C) (r : Replica C) : Replica C :=
  r.withRs (fun rs => { rs.vdMut rs.view (fun d =>
    { d with seen := Function.update d.seen .prepare true }) with
    staged := Function.update rs.staged .prepare
      (Function.update (rs.staged .prepare) rs.view (some qc)) })

theorem Vacant.receive {qc : QC C} (hv : Vacant r) (htype : qc.msgType = .prepare)
    (hview : qc.view = r.rs.view) (hsigs : verifyQc qc r.rs.quorum keys = true) :
    handleEvent keys w r (.message (.phaseQc .preCommit r.rs.view qc
      (r.rs.leaderFor r.rs.view))) = .ok (staging qc r) := by
  have hunseen : (r.rs.viewData r.rs.view).seen .prepare = false := by
    rw [hv.fresh]
    rfl
  simp [handleEvent, handleMsg, handlePhaseQc, certifiedPhase, msgTypeOf, htype, hview, hsigs,
    staging, Replica.withRs, receiveQc, stageQc, hunseen]

theorem Bare.answer {qc : QC C} (h : Bare w r) (hv : Vacant r)
    (hleader : r.rs.leaderFor r.rs.view ≠ w.myId) (htype : qc.msgType = .prepare)
    (hview : qc.view = r.rs.view) (hsigs : verifyQc qc r.rs.quorum keys = true) :
    ∃ r', Answered keys w qc r r' := by
  have hdata : (staging qc r).rs.viewData r.rs.view =
      { ViewData.fresh C with seen := Function.update (fun _ => false) .prepare true } := by
    simp only [staging, withRs_rs, vdMut_viewData, ↓reduceIte, hv.fresh]
    rfl
  have hpass : tryAdvance w .asStored (staging qc r) =
      .ok (castVote w .preCommit qc.nodeHash ((staging qc r).withRs (holdPrepare qc))) := by
    refine (h.congr rfl rfl rfl rfl : Bare w (staging qc r)).pass_answers hleader ?_ ?_ ?_ ?_
    · exact congrArg ViewData.proposal hdata
    · intro p
      refine (congrArg (fun d => d.seen p) hdata).trans ?_
      cases p <;> rfl
    · exact congrArg (fun d => d.voted .preCommit) hdata
    · simp [staging]
  refine ⟨castVote w .preCommit qc.nodeHash ((staging qc r).withRs (holdPrepare qc)), ?_⟩
  constructor
  · rw [hv.receive htype hview hsigs]
    exact hpass
  · rw [castVote_eq]
    exact h.congr rfl rfl rfl rfl
  · rw [castVote_eq]
    rfl
  · rw [castVote_eq]
    rfl
  · rw [castVote_eq]
    rfl
  · rw [castVote_eq]
    rfl
  · exact castVote_ballots ..
  · have huntouched := (castVote_proceeds (w := w) .preCommit qc.nodeHash
      ((staging qc r).withRs (holdPrepare qc))).2.1 .commit (by simp)
    exact huntouched.seen.trans (congrArg (fun d => d.seen .commit) hdata)
  · intro v hne
    rw [castVote_eq]
    simp [vdMut_viewData, staging, holdPrepare, hne]

/-- An event and the pass after it are part of a run. -/
theorem runs_turn {ev : Event C} (hrunning : ¬ finished w r)
    (h : (handleEvent keys w r ev).bind (tryAdvance w ord) = .ok r') :
    Machine.Runs w ⟨r, []⟩ ⟨r', []⟩ := by
  obtain ⟨mid, hev, hpass⟩ := bind_ok.mp h
  have hstart : Machine.Runs w ⟨r, []⟩ ⟨mid, passOrder⟩ :=
    .single ⟨keys, some ev, .event ev r mid hrunning hev⟩
  refine rules_run (fun m m' hr (hs : Machine.Step keys w none m m') => ?_) hpass hstart
  exact hr.tail ⟨keys, none, hs⟩

end

/-! The four replicas in a build without overflow checks. -/
namespace Quartet

def unchecked : Cluster crypto := { cluster with overflowChecks := false }

/-- Node 1 in view `v`, after nothing but timers. -/
structure Drifting (v : Nat) (r : Replica crypto) : Prop where
  bare : Bare (unchecked.wiring 1) r
  n : r.rs.n = 4
  quorum : r.rs.quorum = 3
  view : r.rs.view = v
  prepareQc : r.rs.prepareQc = none
  ballots : r.ballots = []
  fresh : ∀ u, u = 0 ∨ v ≤ u → r.rs.viewData u = .fresh crypto
  newViews : (r.rs.viewData (v - 1)).newViewMsgs.size ≤ 1

theorem Drifting.vacant {v : Nat} {r : Replica crypto} (h : Drifting v r) : Vacant r := by
  obtain rfl := h.view
  exact ⟨h.fresh _ (Or.inr (Nat.le_refl _)), h.newViews⟩

theorem drifting_start :
    Drifting 1 (startProtocol (unchecked.wiring 1) (bootReplica (unchecked.wiring 1) 4)) := by
  refine ⟨⟨by decide, by decide, rfl, rfl⟩, rfl, rfl, rfl, rfl, rfl, ?_, by decide⟩
  intro u _
  unfold startProtocol
  rw [enterNewView_eq]
  simp only [withRs_rs, vdMut_viewData]
  split <;> rfl

/-- The timer of a view before the last takes the node to the next one. -/
theorem Drifting.timer {v : Nat} {r : Replica crypto} (h : Drifting v r) (hpos : 0 < v)
    (hmax : v + 1 < 2 ^ 64) : ∃ r', handleTimer (unchecked.wiring 1) r.rs.view r = .ok r' ∧
      Drifting (v + 1) r' := by
  have hfresh := h.vacant.fresh
  have hnext : addOne (unchecked.wiring 1) r.rs.view = .ok (v + 1) := by
    rw [h.view, addOne, if_pos hmax]
  obtain ⟨r', ht⟩ := h.bare.timer (by rw [hfresh]; rfl) hnext
  obtain rfl := h.view
  refine ⟨r', ht.fired, ht.bare, ht.n.trans h.n, ht.quorum.trans h.quorum, ht.view,
    ht.prepareQc.trans h.prepareQc, ht.ballots.trans h.ballots, ?_, ?_⟩
  · intro u hu
    rw [ht.others u (by omega)]
    exact h.fresh u (by omega)
  · exact ht.newViews (by rw [hfresh]; rfl)

/-- Timers alone take the node to any view: whatever its passes and its timers
keep holds there. -/
theorem drifts_to {P : Machine crypto → Prop} (hstart : P (.start (unchecked.wiring 1) 4))
    (hrule : ∀ m m', P m → Machine.Step (fun _ => none) (unchecked.wiring 1) none m m' → P m')
    (htimer : ∀ r m', P ⟨r, []⟩ → Machine.Step (fun _ => none) (unchecked.wiring 1)
      (some (.timer r.rs.view)) ⟨r, []⟩ m' → P m')
    {v : Nat} (hpos : 1 ≤ v) (hmax : v < 2 ^ 64) : ∃ r, P ⟨r, []⟩ ∧ Drifting v r := by
  induction v, hpos using Nat.le_induction with
  | base =>
    have hpass : tryAdvance (unchecked.wiring 1) .asStored _ = .ok _ :=
      drifting_start.bare.pass drifting_start.vacant
    exact ⟨_, rules_run hrule hpass hstart, drifting_start⟩
  | succ v hpos ih =>
    obtain ⟨r, hp, hd⟩ := ih (by omega)
    obtain ⟨r', hfired, hd'⟩ := hd.timer hpos hmax
    have hpass : tryAdvance (unchecked.wiring 1) .asStored r' = .ok r' :=
      hd'.bare.pass hd'.vacant
    have hnext := htimer r _ hp (.event (.timer r.rs.view) r r' hd.bare.running hfired)
    exact ⟨r', rules_run hrule hpass hnext, hd'⟩

/-- From the last view a `u64` can number, the timer leads back to view 0. -/
theorem wraps_back {r : Replica crypto} (h : Bare (unchecked.wiring 1) r)
    (hview : r.rs.view = 2 ^ 64 - 1) (hseen : (r.rs.viewData r.rs.view).seen .commit = false)
    (hfresh : r.rs.viewData 0 = .fresh crypto) :
    ∃ r', TimedOut (unchecked.wiring 1) 0 r r' ∧ Vacant r' := by
  have hnext : addOne (unchecked.wiring 1) r.rs.view = .ok 0 := by
    rw [hview]
    rfl
  obtain ⟨r', ht⟩ := h.timer hseen hnext
  have hzero : r'.rs.viewData 0 = .fresh crypto := by
    rw [ht.others 0 (by omega)]
    exact hfresh
  refine ⟨r', ht, by rw [ht.view]; exact hzero, ?_⟩
  rw [ht.view, hzero]
  exact Nat.zero_le 1

/-- A PREPARE certificate of the view, made of other nodes' votes. -/
def farCert (v : Nat) : QC crypto :=
  ⟨.prepare, v, .inl 1, [0, 2, 3].map (fun voter => (voter, (voter, ⟨.prepare, v, .inl 1⟩)))⟩

/-- What node 1 makes of a certificate of its view, while it leads another one. -/
theorem votes_on_farCert {r : Replica crypto} (h : Bare (unchecked.wiring 1) r) (hv : Vacant r)
    (hn : r.rs.n = 4) (hquorum : r.rs.quorum = 3) (hview : r.rs.view % 4 ≠ 2)
    (hsigs : verifyQc (farCert r.rs.view) 3 unchecked.peerKeys = true) :
    ∃ r', Answered unchecked.peerKeys (unchecked.wiring 1) (farCert r.rs.view) r r' := by
  refine h.answer hv ?_ rfl rfl (by rw [hquorum]; exact hsigs)
  change r.rs.leaderFor r.rs.view ≠ 1
  unfold ReplicaState.leaderFor
  rw [hn]
  split <;> omega

/-- Node 1 votes in the last view, comes back to view 0 with the certificate of that
vote, and votes there on another one. -/
theorem votes_again : ∃ r r' : Replica crypto,
    Machine.Runs (unchecked.wiring 1) (.start (unchecked.wiring 1) 4) ⟨r, []⟩ ∧
      Machine.Runs (unchecked.wiring 1) ⟨r, []⟩ ⟨r', []⟩ ∧ r.rs.view = 0 ∧
      r.rs.prepareQc = some (farCert (2 ^ 64 - 1)) ∧ r'.rs.prepareQc = some (farCert 0) ∧
      r'.ballots = [⟨.preCommit, 2 ^ 64 - 1, .inl 1⟩, ⟨.preCommit, 0, .inl 1⟩] := by
  obtain ⟨far, hfar, hd⟩ := drifts_to
    (P := Machine.Runs (unchecked.wiring 1) (.start (unchecked.wiring 1) 4)) .refl
    (fun _ _ hr hs => hr.tail ⟨_, none, hs⟩) (fun _ _ hr hs => hr.tail ⟨_, _, hs⟩)
    (v := 2 ^ 64 - 1) (by decide) (by decide)
  obtain ⟨last, hlast⟩ := votes_on_farCert hd.bare hd.vacant hd.n hd.quorum
    (by rw [hd.view]; decide) (by rw [hd.view]; decide +kernel)
  have hlastView : last.rs.view = 2 ^ 64 - 1 := hlast.view.trans hd.view
  obtain ⟨back, hback, hvacant⟩ := wraps_back hlast.bare hlastView
    (by rw [hlast.view]; exact hlast.undecided)
    (by rw [hlast.others 0 (by rw [hd.view]; decide)]; exact hd.fresh 0 (Or.inl rfl))
  obtain ⟨again, hagain⟩ := votes_on_farCert hback.bare hvacant
    (hback.n.trans (hlast.n.trans hd.n)) (hback.quorum.trans (hlast.quorum.trans hd.quorum))
    (by rw [hback.view]; decide) (by rw [hback.view]; decide +kernel)
  have hwrapped : (handleEvent (fun _ => none) (unchecked.wiring 1) last
      (.timer last.rs.view)).bind (tryAdvance (unchecked.wiring 1) .asStored) = .ok back := by
    rw [handleEvent, hback.fired]
    exact hback.bare.pass hvacant
  refine ⟨back, again, ?_, runs_turn hback.bare.running hagain.ran, hback.view, ?_, ?_, ?_⟩
  · exact hfar.trans ((runs_turn hd.bare.running hlast.ran).trans
      (runs_turn hlast.bare.running hwrapped))
  · rw [hback.prepareQc, hlast.prepareQc, hd.view]
  · rw [hagain.prepareQc, hback.view]
  · rw [hagain.ballots, hback.ballots, hlast.ballots, hd.ballots, hd.view, hback.view]
    rfl

end Quartet
end ZkStf
