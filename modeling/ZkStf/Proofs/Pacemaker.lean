import ZkStf.Proofs.Wraparound

namespace ZkStf
open ZkStf.Basis
open ZkStf.Basis.Ballots (Phase)
variable {C : Crypto}

def Effect.arms (v : Nat) : Effect C → Bool
  | .armTimer view _ => view == v
  | _ => false

/-- How many timers a node has armed for a view. -/
def Replica.armed (r : Replica C) (v : Nat) : Nat := r.effects.countP (Effect.arms v)

/-- The timer a step consumes, if it is one that consumes a timer. -/
def Event.fires : Option (Event C) → List Nat
  | some (.timer v) => [v]
  | _ => []

/-- The runs of a node whose timer events all come from timers it armed, each of
them consumed at most once, with the timers consumed so far. -/
inductive Machine.Clocked (w : Wiring C) (n : Nat) : List Nat → Machine C → Prop
  | start : Clocked w n [] (.start w n)
  | step {fired : List Nat} {m m' : Machine C} (keys : Nat → Option C.Key)
      (ev : Option (Event C)) : Clocked w n fired m → Machine.Step keys w ev m m' →
      (∀ v, ev = some (.timer v) → fired.count v < m.replica.armed v) →
      Clocked w n (fired ++ Event.fires ev) m'

section
variable {keys : Nat → Option C.Key} {arrives : Wire C → Prop} {w : Wiring C} {n : Nat}
  {r r' r'' : Replica C}

theorem armed_enter (w : Wiring C) (r : Replica C) (v v' : Nat) :
    (enterNewView w v r).armed v' = r.armed v' + if v = v' then 1 else 0 := by
  rw [enterNewView_eq]
  unfold Replica.armed
  dsimp only
  by_cases hv : v = v' <;> split <;> simp [Effect.arms, List.countP_append, hv]

theorem Backstage.armed (h : Backstage r r') (v : Nat) : r'.armed v = r.armed v := by
  obtain ⟨_, new, heff, hnew⟩ := h
  have hnone : new.countP (Effect.arms v) = 0 := by
    apply List.countP_eq_zero.mpr
    intro e he
    rcases hnew e he with ⟨height, nh, rfl⟩ | ⟨req, input, rfl⟩
    · simp [Effect.arms]
    · simp [Effect.arms]
  unfold Replica.armed
  rw [heff, List.countP_append, hnone, Nat.add_zero]

theorem armed_cast (w : Wiring C) (p : Phase) (nh : C.Hash) (r : Replica C) (v : Nat) :
    (castVote w p nh r).armed v = r.armed v := by
  rw [castVote_eq]
  unfold Replica.armed
  dsimp only
  split <;> simp [Effect.arms]

/-- Timers are armed on the way into a view only. -/
theorem Move.armed (hm : Move keys arrives w r r') (hv : r'.rs.view = r.rs.view) (v : Nat) :
    r'.armed v = r.armed v := by
  cases hm with
  | enter timeout =>
    rw [enterNewView_eq] at hv
    exact absurd hv (Nat.succ_ne_self _)
  | propose => simp [Replica.armed, sendProposal, Effect.arms, List.countP_append]
  | prepare => exact armed_cast w _ _ _ v
  | certify => simp [Replica.armed, Effect.arms, List.countP_append]
  | preCommit => exact armed_cast w _ _ _ v
  | commit => exact armed_cast w _ _ _ v
  | execute decided nh node r' known path found next valid applied =>
    simp [Replica.armed, (applyNode_frame applied).2.2, Effect.arms, List.countP_append]
  | kick => simp [Replica.armed, submitValidation, Effect.arms, List.countP_append]
  | _ => rfl

theorem Turn.armed (h : Turn keys arrives w r r') (v : Nat) : r'.armed v = r.armed v := by
  obtain ⟨mid, hmid, hchores⟩ := h
  rw [(chores_backstage hchores).armed]
  rcases hmid with rfl | ⟨hm, hv⟩
  · rfl
  · exact hm.armed hv v

/-- Every certificate announced as seen is staged. -/
def Matched (rs : ReplicaState C) : Prop :=
  ∀ p v, (rs.viewData v).seen p = true → (rs.staged p v).isSome

/-- The certificates seen survive an update of one view that leaves them alone. -/
theorem seen_update {g : Nat → ViewData C} {v : Nat} {d : ViewData C} (h : d.seen = (g v).seen)
    (v' : Nat) : (Function.update g v d v').seen = (g v').seen := by
  rw [Function.update_apply]
  split
  · subst v'
    exact h
  · rfl

theorem stageQc_seen (p : Phase) (v : Nat) (qc : QC C) (rs : ReplicaState C) (q : Phase)
    (v' : Nat) : ((stageQc p v qc rs).viewData v').seen q = true ↔
      (rs.viewData v').seen q = true ∨ (q = p ∧ v' = v) := by
  rw [stageQc_eq]
  simp only [vdMut_viewData]
  by_cases hv : v' = v
  · subst v'
    by_cases hq : q = p
    · subst q
      simp
    · simp [hq]
  · simp [hv]

theorem Matched.stage {rs : ReplicaState C} (h : Matched rs) (p : Phase) (v : Nat) (qc : QC C) :
    Matched (stageQc p v qc rs) := by
  intro q v' hseen
  rw [stageQc_seen] at hseen
  rw [stageQc_eq]
  dsimp only
  split
  · rename_i hold
    rcases hseen with hseen | ⟨rfl, rfl⟩
    · exact h q v' hseen
    · exact h q v' hold
  · simp only [Function.update_apply]
    split
    · subst q
      rw [Function.update_apply]
      split
      · rfl
      · rcases hseen with hseen | ⟨_, hv⟩
        · exact h p v' hseen
        · contradiction
    · rcases hseen with hseen | ⟨hq, _⟩
      · exact h q v' hseen
      · contradiction

/-- Two states with the same certificates seen and staged. -/
structure SameStage (rs rs' : ReplicaState C) : Prop where
  seen : ∀ v, (rs'.viewData v).seen = (rs.viewData v).seen
  staged : rs'.staged = rs.staged

theorem SameStage.matched {rs rs' : ReplicaState C} (h : SameStage rs rs') (hm : Matched rs) :
    Matched rs' := by
  intro p v hseen
  rw [h.seen] at hseen
  rw [h.staged]
  exact hm p v hseen

theorem enter_sameStage (w : Wiring C) (v : Nat) (r : Replica C) :
    SameStage r.rs (enterNewView w v r).rs := by
  rw [enterNewView_eq]
  exact ⟨seen_update rfl, rfl⟩

/-- A move stages at most one certificate. -/
theorem Move.stage_cases (hm : Move keys arrives w r r') :
    SameStage r.rs r'.rs ∨ ∃ p v qc, SameStage (stageQc p v qc r.rs) r'.rs := by
  cases hm with
  | stash => exact Or.inl ⟨seen_update rfl, rfl⟩
  | receive ty p view qc =>
    refine Or.inr ⟨p, view, qc, ?_⟩
    rw [withRs_rs, receiveQc_eq]
    exact ⟨fun _ => rfl, rfl⟩
  | count => exact Or.inl ⟨seen_update rfl, rfl⟩
  | collect => exact Or.inl ⟨seen_update rfl, rfl⟩
  | enter timeout => rw [enterNewView_eq]; exact Or.inl ⟨seen_update rfl, rfl⟩
  | propose newViews leaf =>
    refine Or.inl ⟨fun v => ?_, rfl⟩
    unfold sendProposal stashProposal
    refine (seen_update ?_ v).trans (seen_update ?_ v)
    · rfl
    · rfl
  | skip => exact Or.inl ⟨seen_update rfl, rfl⟩
  | prepare => rw [castVote_eq]; exact Or.inl ⟨seen_update rfl, rfl⟩
  | certify p ord qc =>
    refine Or.inr ⟨p, r.rs.view, qc, ?_, ?_⟩
    · intro v
      rw [emit_rs, withRs_rs]
      funext q
      rw [Bool.eq_iff_iff, stageQc_seen, stageQc_seen, vdMut_viewData]
      split
      · subst v
        rfl
      · rfl
    · rw [emit_rs, withRs_rs, stageQc_eq, stageQc_eq]
      simp [ReplicaState.vdMut]
  | preCommit => rw [castVote_eq]; exact Or.inl ⟨seen_update rfl, rfl⟩
  | commit => rw [castVote_eq]; exact Or.inl ⟨seen_update rfl, rfl⟩
  | execute decided nh node r' known path found next valid applied =>
    rw [(applyNode_frame applied).1]
    exact Or.inl ⟨fun _ => rfl, rfl⟩
  | _ => exact Or.inl ⟨fun _ => rfl, rfl⟩

theorem Matched.move (h : Matched r.rs) (hm : Move keys arrives w r r') : Matched r'.rs := by
  rcases hm.stage_cases with hsame | ⟨p, v, qc, hsame⟩
  · exact hsame.matched h
  · exact hsame.matched (h.stage p v qc)

theorem Matched.start : Matched (startProtocol w (bootReplica w n)).rs := by
  apply (enter_sameStage w 1 _).matched
  intro p v hseen
  cases hseen

theorem Move.seen_mono (hm : Move keys arrives w r r') {p : Phase} {v : Nat}
    (h : (r.rs.viewData v).seen p = true) : (r'.rs.viewData v).seen p = true := by
  rcases hm.stage_cases with hsame | ⟨q, v', qc, hsame⟩
  · rw [hsame.seen]
    exact h
  · rw [hsame.seen, stageQc_seen]
    exact Or.inl h

theorem moves_seen (hm : Moves keys arrives w r r') {p : Phase} {v : Nat}
    (h : (r.rs.viewData v).seen p = true) : (r'.rs.viewData v).seen p = true :=
  moves_invariant (P := fun r => (r.rs.viewData v).seen p = true) (fun _ _ h hm => hm.seen_mono h)
    hm h

/-- A decision of the current view is at hand: its certificate is announced. -/
def Departing (r : Replica C) : Prop := (r.rs.viewData r.rs.view).seen .commit = true

theorem Departing.turn (h : Departing r) (ht : Turn keys arrives w r r') : Departing r' := by
  unfold Departing
  rw [ht.view]
  exact moves_seen ht.moves h

/-- The decision rule leaves the view exactly when a decision is at hand. -/
theorem replica_decide_departs (hm : Matched r.rs) (h : replicaDecide w r = .ok r') :
    (r' = r ∧ ¬ Departing r) ∨ ∃ mid next, (∀ v, mid.armed v = r.armed v) ∧
      addOne w r.rs.view = .ok next ∧ r' = enterNewView w next mid := by
  rcases replica_decide_inv h with ⟨rfl, hwait⟩ |
    ⟨qc, mid, next, _, _, _, hchores, _, hnext, rfl⟩
  · refine Or.inl ⟨rfl, ?_⟩
    intro hdep
    have hstaged := hm _ _ hdep
    unfold Departing at hdep
    rcases hwait with hwait | hwait
    · simp [hwait] at hdep
    · simp [hwait] at hstaged
  · exact Or.inr ⟨mid.withRs _, next, (chores_backstage hchores).armed, hnext, rfl⟩

/-- What the timers of a run owe to its views: none is consumed that was not
armed. Apart from a departure that the pass has still to make, one of the current
view is left. -/
structure Timed (fired : List Nat) (m : Machine C) : Prop where
  matched : Matched m.replica.rs
  consumed : ∀ v, fired.count v ≤ m.replica.armed v
  live : fired.count m.replica.rs.view < m.replica.armed m.replica.rs.view ∨
    (.replicaDecide ∈ m.todo ∧ Departing m.replica)

theorem step_matched {m m' : Machine C} {ev : Option (Event C)}
    (hstep : Machine.Step keys w ev m m') (h : Matched m.replica.rs) : Matched m'.replica.rs := by
  apply step_keeps (P := fun r => Matched r.rs) (fun _ _ h hm => h.move hm) _ hstep
    (fun _ _ => trivial) h
  intro r timeout _ hm
  exact (enter_sameStage w 0 _).matched hm

/-- Entering a view leaves a fresh timer. -/
theorem Timed.enter {fired : List Nat} {mid : Replica C} {todo : List Rule} {v : Nat}
    (hm : Matched (enterNewView w v mid).rs) (hcons : ∀ v', fired.count v' ≤ mid.armed v') :
    Timed fired ⟨enterNewView w v mid, todo⟩ := by
  refine ⟨hm, ?_, Or.inl ?_⟩
  · intro v'
    rw [armed_enter]
    exact (hcons v').trans (Nat.le_add_right _ _)
  · rw [enterNewView_view, armed_enter, if_pos rfl]
    exact Nat.lt_succ_of_le (hcons v)

theorem Timed.start : Timed (C := C) [] (.start w n) := by
  apply Timed.enter (v := 1) Matched.start
  intro v
  exact Nat.zero_le _

/-- A turn keeps the view and its timers. -/
theorem Timed.turn {fired : List Nat} {todo todo' : List Rule} (h : Timed fired ⟨r, todo⟩)
    (hm : Matched r'.rs) (ht : Turn keys arrives w r r')
    (htodo : .replicaDecide ∈ todo → .replicaDecide ∈ todo') : Timed fired ⟨r', todo'⟩ := by
  refine ⟨hm, ?_, ?_⟩
  · intro v
    rw [ht.armed]
    exact h.consumed v
  · rw [ht.armed, ht.view]
    rcases h.live with hlive | ⟨hmem, hdep⟩
    · exact Or.inl hlive
    · exact Or.inr ⟨htodo hmem, hdep.turn ht⟩

/-- A timer was armed before it is consumed. -/
theorem Timed.consume {fired : List Nat} {m : Machine C} (h : Timed fired m) {v : Nat}
    (harmed : fired.count v < m.replica.armed v) (v' : Nat) :
    (fired ++ [v]).count v' ≤ m.replica.armed v' := by
  rw [List.count_append, List.count_singleton]
  by_cases hv : v = v'
  · subst v'
    simpa using Nat.succ_le_of_lt harmed
  · simpa [hv] using h.consumed v'

theorem Timed.timer {fired : List Nat} (h : Timed fired ⟨r, []⟩) {v : Nat}
    (harmed : fired.count v < r.armed v) (hran : handleTimer w v r = .ok r') :
    Timed (fired ++ [v]) ⟨r', passOrder⟩ := by
  have hcons := h.consume harmed
  rcases timer_inv hran with ⟨rfl, hseen⟩ | ⟨timeout, next, rfl, _, rfl⟩
  · refine ⟨h.matched, hcons, ?_⟩
    by_cases hv : v = r'.rs.view
    · exact Or.inr ⟨by simp [passOrder], hseen hv⟩
    · rcases h.live with hlive | ⟨hmem, _⟩
      · refine Or.inl ?_
        simpa [List.count_append, List.count_singleton, hv] using hlive
      · cases hmem
  · exact Timed.enter ((enter_sameStage w _ _).matched h.matched) hcons

theorem Timed.step {fired : List Nat} {m m' : Machine C} {ev : Option (Event C)}
    (h : Timed fired m) (hstep : Machine.Step keys w ev m m')
    (harmed : ∀ v, ev = some (.timer v) → fired.count v < m.replica.armed v) :
    Timed (fired ++ Event.fires ev) m' := by
  have hmatched : Matched m'.replica.rs := step_matched hstep h.matched
  cases hstep with
  | event ev r r' running ran =>
    by_cases htimer : ∃ v, ev = .timer v
    · obtain ⟨v, rfl⟩ := htimer
      exact h.timer (harmed v rfl) ran
    · have hcases : Turn keys (fun _ => True) w r r' ∨ _ := event_inv ev ran (by simp)
      have hfires : Event.fires (some ev) = [] := by
        cases ev with
        | timer v => exact absurd ⟨v, rfl⟩ htimer
        | message msg => rfl
        | validated k => rfl
      rw [hfires, List.append_nil]
      rcases hcases with ht | ⟨timeout, next, hev, _⟩
      · exact h.turn hmatched ht (fun hmem => by cases hmem)
      · exact absurd ⟨_, hev⟩ htimer
  | rule ord rule rest r r' ran =>
    have hfires : Event.fires (none : Option (Event C)) = [] := rfl
    rw [hfires, List.append_nil]
    by_cases hne : rule = .replicaDecide
    · subst rule
      rcases replica_decide_departs h.matched ran with ⟨rfl, hstay⟩ | ⟨mid, next, harm, _, rfl⟩
      · refine ⟨h.matched, h.consumed, ?_⟩
        rcases h.live with hlive | ⟨_, hdep⟩
        · exact Or.inl hlive
        · exact absurd hdep hstay
      · apply Timed.enter hmatched
        intro v
        rw [harm]
        exact h.consumed v
    · have ht : Turn keys (fun _ => True) w r r' := rule_turn rule ran hne
      apply h.turn hmatched ht
      intro hmem
      exact (List.mem_cons.mp hmem).resolve_left (Ne.symm hne)

theorem clocked_timed {fired : List Nat} {m : Machine C} (hr : Machine.Clocked w n fired m) :
    Timed fired m := by
  induction hr with
  | start => exact .start
  | step keys ev _ hstep harmed ih => exact ih.step hstep harmed

/-- A node that waits for events has a timer of its view left. -/
theorem clocked_live {fired : List Nat} {m : Machine C} (hr : Machine.Clocked w n fired m)
    (hidle : m.todo = []) : fired.count m.replica.rs.view < m.replica.armed m.replica.rs.view := by
  rcases (clocked_timed hr).live with hlive | ⟨hmem, _⟩
  · exact hlive
  · rw [hidle] at hmem
    cases hmem

/-- A view that goes up, or comes back to 0 in a build without overflow checks. -/
def Onward (w : Wiring C) (v v' : Nat) : Prop :=
  v < v' ∨ w.overflowChecks = false ∧ 2 ^ 64 ≤ v + 2 ∧ v' ≤ 1

theorem Onward.of_next {v v' : Nat} (h : addOne w v = .ok v') : Onward w v v' := by
  rcases add_one_cases h with rfl | ⟨hbuild, hmax, rfl⟩
  · exact Or.inl (Nat.lt_succ_self v)
  · exact Or.inr ⟨hbuild, by omega, Nat.zero_le 1⟩

/-- The rules that come before and after the decision leave the view alone. -/
theorem pass_view {rules : List Rule} (hmem : .replicaDecide ∉ rules)
    (h : runRules w ord rules r = .ok r') : r'.rs.view = r.rs.view := by
  induction rules generalizing r with
  | nil => cases h; rfl
  | cons rule rest ih =>
    obtain ⟨mid, hrun, hrest⟩ := bind_ok.mp h
    have ht : Turn (fun _ => none) (fun _ => True) w r mid :=
      rule_turn rule hrun (fun he => hmem (by simp [he]))
    exact (ih (fun hin => hmem (List.mem_cons_of_mem _ hin)) hrest).trans ht.view

/-- A pass adds one to the view at most. -/
theorem pass_view_cases {rules : List Rule} (honce : rules.count .replicaDecide ≤ 1)
    (h : runRules w ord rules r = .ok r') :
    r'.rs.view = r.rs.view ∨ addOne w r.rs.view = .ok r'.rs.view := by
  induction rules generalizing r with
  | nil => cases h; exact Or.inl rfl
  | cons rule rest ih =>
    obtain ⟨mid, hrun, hrest⟩ := bind_ok.mp h
    by_cases hne : rule = .replicaDecide
    · subst rule
      have hlast : .replicaDecide ∉ rest := by
        rw [List.count_cons_self] at honce
        exact List.count_eq_zero.mp (by omega)
      rw [pass_view hlast hrest]
      exact rule_view _ hrun
    · have ht : Turn (fun _ => none) (fun _ => True) w r mid := rule_turn rule hrun hne
      rw [List.count_cons_of_ne hne] at honce
      rw [← ht.view]
      exact ih honce hrest

/-- A pass that starts with a decision at hand leaves the view. -/
theorem pass_departs {rules : List Rule} (hm : Matched r.rs) (hd : Departing r)
    (hmem : .replicaDecide ∈ rules) (honce : rules.count .replicaDecide ≤ 1)
    (h : runRules w ord rules r = .ok r') : addOne w r.rs.view = .ok r'.rs.view := by
  induction rules generalizing r with
  | nil => cases hmem
  | cons rule rest ih =>
    obtain ⟨mid, hrun, hrest⟩ := bind_ok.mp h
    by_cases hne : rule = .replicaDecide
    · subst rule
      have hlast : .replicaDecide ∉ rest := by
        rw [List.count_cons_self] at honce
        exact List.count_eq_zero.mp (by omega)
      rcases replica_decide_departs hm hrun with ⟨_, hstay⟩ | ⟨left, next, _, hnext, rfl⟩
      · exact absurd hd hstay
      · rw [pass_view hlast hrest, enterNewView_view]
        exact hnext
    · have ht : Turn (fun _ => none) (fun _ => True) w r mid := rule_turn rule hrun hne
      have hmatched : Matched mid.rs := moves_invariant (P := fun r => Matched r.rs)
        (fun _ _ h hm => h.move hm) ht.moves hm
      rw [List.count_cons_of_ne hne] at honce
      rw [← ht.view]
      exact ih hmatched (hd.turn ht) ((List.mem_cons.mp hmem).resolve_left (Ne.symm hne)) honce
        hrest

/-- The timer of the view and the pass that follows it take the node on. -/
theorem timer_onward (hm : Matched r.rs) (htimer : handleTimer w r.rs.view r = .ok r')
    (hpass : tryAdvance w ord r' = .ok r'') : Onward w r.rs.view r''.rs.view := by
  have honce : passOrder.count .replicaDecide ≤ 1 := by decide
  rcases timer_inv htimer with ⟨rfl, hseen⟩ | ⟨timeout, next, _, hnext, rfl⟩
  · exact .of_next (pass_departs hm (hseen rfl) (by simp [passOrder]) honce hpass)
  · have hstep := Onward.of_next hnext
    rcases pass_view_cases honce hpass with hsame | hagain
    · rw [hsame, enterNewView_view]
      exact hstep
    -- the pass decides the view just entered
    · rw [enterNewView_view] at hagain
      rcases add_one_cases hnext with rfl | ⟨hbuild, hmax, rfl⟩ <;>
        rcases add_one_cases hagain with hview | ⟨hbuild', hmax', hview⟩
      · exact Or.inl (by omega)
      · exact Or.inr ⟨hbuild', by omega, by omega⟩
      · exact Or.inr ⟨hbuild, by omega, by omega⟩
      · omega

/-- The pacemaker never wedges. Between two events a timer of the current view is
always left; within a pass it is, or the pass is about to leave the view. A timer
of the current view moves the node on, whether the handler acts on it or not: to a
higher view, until a build without overflow checks comes back from `u64::MAX` to 0. -/
theorem pacemaker_never_wedges {m : Machine C} (hr : Machine.Runs w (.start w n) m) :
    (∀ fired, Machine.Clocked w n fired m →
      (fired.count m.replica.rs.view < m.replica.armed m.replica.rs.view ∨
        (.replicaDecide ∈ m.todo ∧ Departing m.replica)) ∧
      (m.todo = [] → fired.count m.replica.rs.view < m.replica.armed m.replica.rs.view)) ∧
    ∀ ord r' r'', handleTimer w m.replica.rs.view m.replica = .ok r' →
      tryAdvance w ord r' = .ok r'' → m.replica.rs.view < r''.rs.view ∨
        w.overflowChecks = false ∧ 2 ^ 64 ≤ m.replica.rs.view + 2 ∧ r''.rs.view ≤ 1 := by
  refine ⟨?_, ?_⟩
  · exact fun fired hclocked => ⟨(clocked_timed hclocked).live, clocked_live hclocked⟩
  · intro ord r' r'' htimer hpass
    have hmatched : Matched m.replica.rs :=
      runs_invariant (P := fun r => Matched r.rs) .start (fun _ _ _ h hm => h.move hm)
        (fun _ _ _ h => (enter_sameStage w 0 _).matched h) hr
    exact timer_onward hmatched htimer hpass

theorem Machine.Clocked.rule {fired : List Nat} {m m' : Machine C}
    (hr : Machine.Clocked w n fired m) (h : Machine.Step keys w none m m') :
    Machine.Clocked w n fired m' := by
  have hnext := hr.step _ none h (by simp)
  rwa [show Event.fires (none : Option (Event C)) = [] from rfl, List.append_nil] at hnext

theorem clocked_pass {fired : List Nat} {m : Machine C} {r' : Replica C}
    (hr : Machine.Clocked w n fired m) (h : runRules w ord m.todo m.replica = .ok r') :
    Machine.Clocked w n fired ⟨r', []⟩ :=
  rules_run (fun m m' hm (hs : Machine.Step (fun _ => none) w none m m') => hm.rule hs) h hr

theorem Machine.Clocked.runs {fired : List Nat} {m : Machine C}
    (hr : Machine.Clocked w n fired m) : Machine.Runs w (.start w n) m := by
  induction hr with
  | start => exact .refl
  | step keys ev _ hstep _ ih => exact ih.tail ⟨keys, ev, hstep⟩

end

/-- Node 1 after its first pass: the timer of view 1 is left, and takes it to
view 2. -/
theorem quartet_timer : ∃ r r' r'' : Replica Quartet.crypto,
    Machine.Clocked (Quartet.cluster.wiring 1) 4 [] ⟨r, []⟩ ∧
      [].count r.rs.view < r.armed r.rs.view ∧
      handleTimer (Quartet.cluster.wiring 1) r.rs.view r = .ok r' ∧
      tryAdvance (Quartet.cluster.wiring 1) .asStored r' = .ok r'' ∧ r.rs.view < r''.rs.view := by
  have hruns : (tryAdvance (Quartet.cluster.wiring 1) .asStored
      (startProtocol (Quartet.cluster.wiring 1) (bootReplica (Quartet.cluster.wiring 1) 4))
      ).toOption.any (fun r => (handleTimer (Quartet.cluster.wiring 1) r.rs.view r
        ).toOption.any (fun r' => (tryAdvance (Quartet.cluster.wiring 1) .asStored r'
          ).toOption.any (fun _ => true))) = true := by
    decide +kernel
  obtain ⟨r, hpass, hruns⟩ := toOption_any hruns
  obtain ⟨r', htimer, hruns⟩ := toOption_any hruns
  obtain ⟨r'', hagain, _⟩ := toOption_any hruns
  have hclocked : Machine.Clocked (Quartet.cluster.wiring 1) 4 [] ⟨r, []⟩ :=
    clocked_pass .start hpass
  obtain ⟨hlive, hlarger⟩ := pacemaker_never_wedges hclocked.runs
  refine ⟨r, r', r'', hclocked, (hlive [] hclocked).2 rfl, htimer, hagain, ?_⟩
  rcases hlarger _ r' r'' htimer hagain with hlt | ⟨hbuild, _⟩
  · exact hlt
  · cases hbuild

/-- In a build without overflow checks the timer of view `u64::MAX` takes node 1 to
view 0. -/
theorem timer_falls_back : ∃ (fired : List Nat) (r r' r'' : Replica Quartet.crypto),
    Machine.Clocked (Quartet.unchecked.wiring 1) 4 fired ⟨r, []⟩ ∧
      handleTimer (Quartet.unchecked.wiring 1) r.rs.view r = .ok r' ∧
      tryAdvance (Quartet.unchecked.wiring 1) .asStored r' = .ok r'' ∧
      ¬ r.rs.view < r''.rs.view := by
  obtain ⟨r, ⟨fired, hclocked⟩, hd⟩ := Quartet.drifts_to
    (P := fun m => ∃ fired, Machine.Clocked (Quartet.unchecked.wiring 1) 4 fired m) ⟨[], .start⟩
    (fun _ _ ⟨fired, hm⟩ hs => ⟨fired, hm.rule hs⟩)
    (fun r m' ⟨fired, hm⟩ hs => ⟨_, hm.step _ _ hs (by
      rintro v ⟨⟩
      exact clocked_live hm rfl)⟩)
    (v := 2 ^ 64 - 1) (by decide) (by decide)
  have hfresh := hd.vacant.fresh
  obtain ⟨r', ht, hvacant⟩ := Quartet.wraps_back hd.bare hd.view (by rw [hfresh]; rfl)
    (hd.fresh 0 (Or.inl rfl))
  refine ⟨fired, r, r', r', hclocked, ht.fired, ht.bare.pass hvacant, ?_⟩
  rw [ht.view]
  exact Nat.not_lt_zero _

end ZkStf
