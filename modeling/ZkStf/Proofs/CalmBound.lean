import ZkStf.Basis.Counting
import ZkStf.Proofs.CalmEnd
import ZkStf.Proofs.CalmWorker

namespace ZkStf
open ZkStf.Basis
open ZkStf.Basis.Ballots
variable {C : Crypto}

/-- What a node may do next without doing anything twice: go on with its pass, or
take a message, a timer of a view it has left, or its worker's answer. -/
def Cluster.Due (K : Cluster C) (log : Nat → List (Event C)) (s : System C) (i : Nat) :
    Option (Event C) → Prop
  | none => True
  | some (.message msg) => K.Posted s.replicas i msg ∧ .message msg ∉ log i
  | some (.timer v) => (∃ ms, .armTimer v ms ∈ (s i).replica.effects) ∧
      v < (s i).replica.rs.view ∧ .timer v ∉ log i
  | some (.validated k) => k = 0 ∧ (s i).replica.valReqs ≠ []

/-- The calm runs in which every message and every timer is taken at most once,
with the number of their steps. -/
inductive Cluster.Prompt (K : Cluster C) : Nat → (Nat → List (Event C)) → System C → Prop
  | start : Prompt K 0 (fun _ => []) (System.start K)
  | step {t : Nat} {log : Nat → List (Event C)} {s : System C} (i : Nat) (ev : Option (Event C))
      (m : Machine C) : Prompt K t log s → K.Honest i → K.Due log s i ev →
      Machine.Step K.peerKeys (K.wiring i) ev (s i) m →
      Prompt K (t + 1) (Function.update log i (log i ++ ev.toList)) (Function.update s i m)

def Event.timed : Event C → Option Nat
  | .timer v => some v
  | _ => none

def Event.isAnswer : Event C → Bool
  | .validated _ => true
  | _ => false

/-- Every slot of the views up to `v`. -/
def Slot.within (v : Nat) : List Slot :=
  (List.range (v + 1)).flatMap (fun u =>
    [.proposal u, .announcement .preCommit u, .announcement .commit u, .announcement .decide u,
      .vote .prepare u, .vote .preCommit u, .vote .commit u, .newView u, .timer u])

/-- Everything that was sent. -/
def Cluster.letters (K : Cluster C) (rs : Nat → Replica C) : List (Wire C) :=
  (List.range K.n).flatMap (fun j => (rs j).effects.filterMap Effect.sent)

/-- The blocks there is a verdict on. -/
def Cluster.judged (K : Cluster C) (r : Replica C) : Finset Nat :=
  (Finset.range K.numBlocks).filter
    (fun k => (r.rs.validationResult (nodeHash (K.workload.course k))).isSome)

namespace Cluster
variable (K : Cluster C)

/-- The events a node takes at most: the messages of everyone, one timer per view
and one answer per block. -/
def maxEvents : Nat := K.n * (9 * (K.numBlocks + 2)) + (K.numBlocks + 1) + K.numBlocks

/-- Each event is followed by a pass of ten rules. -/
def maxSteps : Nat := K.n * (11 * K.maxEvents + 10)

end Cluster

section
variable {K : Cluster C} {rs : Nat → Replica C} {log : Nat → List (Event C)} {s : System C}
  {i j t : Nat} {r r' : Replica C}

/-- The views of a calm run are far from the end of their range. -/
theorem Cluster.Calm.view_small (hinj : Function.Injective (nodeHash (C := C)))
    (hgen : ∀ node : Node C, nodeHash node ≠ genesisHash C) (hK : K.Faultless)
    (hcalm : K.Calm log s) (hi : K.Honest i) : (s i).replica.rs.view + 1 < 2 ^ 64 := by
  have hview : (s i).replica.rs.view ≤ K.numBlocks + 1 :=
    (hcalm.calmed hinj hgen hK).view_le hK.free hi
  have hsmall := numBlocks_small K
  omega

theorem Cluster.Prompt.calm (hinj : Function.Injective (nodeHash (C := C)))
    (hgen : ∀ node : Node C, nodeHash node ≠ genesisHash C) (hK : K.Faultless)
    (h : K.Prompt t log s) : K.Calm log s := by
  induction h with
  | start => exact .start
  | @step t log s i ev m _ hi hdue hstep ih =>
    refine ih.step i ev m hi ?_ ?_ hstep ?_
    · rintro msg rfl
      exact hdue.1
    · rintro v rfl
      exact hdue.2.1
    · have hsmall := ih.view_small hinj hgen hK hi
      exact fun hwraps => absurd hwraps.1 (by omega)

/-- Every event brings a pass of ten rules with it. -/
theorem step_todo {keys : Nat → Option C.Key} {w : Wiring C} {ev : Option (Event C)}
    {m m' : Machine C} (h : Machine.Step keys w ev m m') :
    m'.todo.length + 1 = m.todo.length + 11 * ev.toList.length := by
  cases h with
  | event ev r r' running ran => simp [passOrder]
  | rule ord rule rest r r' ran => simp

theorem Cluster.Prompt.steps (h : K.Prompt t log s) :
    t + ∑ j ∈ Finset.range K.n, (s j).todo.length =
      ∑ j ∈ Finset.range K.n, (11 * (log j).length + 10) := by
  induction h with
  | start => simp [System.start, Machine.start, passOrder]
  | @step t log s i ev m _ hi hdue hstep ih =>
    have htodo := sum_update (fun _ (m : Machine C) => m.todo.length) s hi.1 m
    have hlog := sum_update (fun _ (l : List (Event C)) => 11 * l.length + 10) log hi.1
      (log i ++ ev.toList)
    have hone := step_todo hstep
    rw [List.length_append] at hlog
    omega

theorem Slot.within_length (v : Nat) : (Slot.within v).length ≤ (v + 1) * 9 :=
  length_flatMap_le (fun _ _ => le_rfl)

/-- A node takes nine slots per view at most. -/
theorem slots_within {w : Wiring C} (ht : Tidy r) (ha : ∀ e ∈ r.effects, e.Addressed w r) :
    r.slots ⊆ Slot.within r.rs.view := by
  intro slot hslot
  have hmark := ht.marked slot hslot
  obtain ⟨e, he, hs⟩ := List.mem_filterMap.mp hslot
  have haddr := ha e he
  refine List.mem_flatMap.mpr ?_
  cases slot with
  | proposal v =>
    refine ⟨v, ?_, by simp⟩
    cases e with
    | broadcast msg =>
      cases msg with
      | proposal v' leaf high sender =>
        cases hs
        exact List.mem_range.mpr (Nat.lt_succ_of_le haddr.2.2)
      | _ => cases hs
    | sendTo peer msg => cases msg <;> cases hs
    | _ => cases hs
  | announcement ty v =>
    obtain ⟨p, rfl, _⟩ := hmark
    refine ⟨v, ?_, by cases p <;> simp [announcedBy]⟩
    cases e with
    | broadcast msg =>
      cases msg with
      | phaseQc ty v' qc sender =>
        cases hs
        exact List.mem_range.mpr (Nat.lt_succ_of_le haddr.2.2.1)
      | _ => cases hs
    | sendTo peer msg => cases msg <;> cases hs
    | _ => cases hs
  | vote ty v =>
    obtain ⟨p, rfl, _⟩ := hmark
    refine ⟨v, ?_, by cases p <;> simp [msgTypeOf]⟩
    cases e with
    | sendTo peer msg =>
      cases msg with
      | vote ty v' nh voter sig =>
        cases hs
        exact List.mem_range.mpr (Nat.lt_succ_of_le haddr.2.2.2.1)
      | _ => cases hs
    | broadcast msg => cases msg <;> cases hs
    | _ => cases hs
  | newView v => exact ⟨v, List.mem_range.mpr (Nat.lt_succ_of_lt hmark), by simp⟩
  | timer v => exact ⟨v, List.mem_range.mpr (Nat.lt_succ_of_le hmark), by simp⟩

/-- Every message goes out through a slot. -/
theorem sent_le_slots {w : Wiring C} (ha : ∀ e ∈ r.effects, e.Addressed w r) :
    (r.effects.filterMap Effect.sent).length ≤ r.slots.length := by
  rw [Replica.slots, List.length_filterMap_eq_countP, List.length_filterMap_eq_countP]
  apply List.countP_mono_left
  intro e he hsent
  have haddr := ha e he
  cases e with
  | broadcast msg =>
    cases msg with
    | proposal => rfl
    | phaseQc => rfl
    | _ => exact haddr.elim
  | sendTo peer msg =>
    cases msg with
    | vote => rfl
    | newView => rfl
    | _ => exact haddr.elim
  | _ => cases hsent

theorem posted_letters {msg : Wire C} (hp : K.Posted rs i msg) : msg ∈ K.letters rs := by
  obtain ⟨j, hj, _, hsent | hsent⟩ := hp
  · exact List.mem_flatMap.mpr ⟨j, List.mem_range.mpr hj.1,
      List.mem_filterMap.mpr ⟨_, hsent, rfl⟩⟩
  · exact List.mem_flatMap.mpr ⟨j, List.mem_range.mpr hj.1,
      List.mem_filterMap.mpr ⟨_, hsent, rfl⟩⟩

theorem Steady.sent_le (h : Steady K rs) (hK : K.Faultless) (hj : K.Honest j) :
    ((rs j).effects.filterMap Effect.sent).length ≤ 9 * (K.numBlocks + 2) := by
  have hview := h.view_le hK.free hj
  calc ((rs j).effects.filterMap Effect.sent).length
      ≤ (rs j).slots.length := sent_le_slots (h.candid.addressed j)
    _ ≤ (Slot.within (rs j).rs.view).length := (List.subperm_of_subset (h.tidy j hj).once
        (slots_within (h.tidy j hj) (h.candid.addressed j))).length_le
    _ ≤ ((rs j).rs.view + 1) * 9 := Slot.within_length _
    _ ≤ 9 * (K.numBlocks + 2) := by omega

theorem Steady.letters_le (h : Steady K rs) (hK : K.Faultless) :
    (K.letters rs).length ≤ K.n * (9 * (K.numBlocks + 2)) :=
  length_flatMap_le (fun _ hj => h.sent_le hK ⟨hj, by simp [hK.free]⟩)

/-- What a prompt run has logged of a node. -/
structure Diary (K : Cluster C) (log : List (Event C)) (rs : Nat → Replica C) (i : Nat) :
    Prop where
  once : (log.filterMap Event.wire).Nodup
  posted : ∀ msg ∈ log.filterMap Event.wire, K.Posted rs i msg
  rings : (log.filterMap Event.timed).Nodup
  rung : ∀ v ∈ log.filterMap Event.timed, v < (rs i).rs.view
  answers : log.countP Event.isAnswer ≤ (K.judged (rs i)).card

theorem log_length (log : List (Event C)) : log.length = (log.filterMap Event.wire).length +
    (log.filterMap Event.timed).length + log.countP Event.isAnswer := by
  induction log with
  | nil => rfl
  | cons ev rest ih =>
    cases ev <;>
      simp [List.filterMap_cons, List.countP_cons, Event.wire, Event.timed, Event.isAnswer, ih] <;>
      omega

theorem Diary.length_le {l : List (Event C)} (hl : Diary K l rs i) (h : Steady K rs)
    (hK : K.Faultless) (hi : K.Honest i) : l.length ≤ K.maxEvents := by
  have hview := h.view_le hK.free hi
  have hwires : (l.filterMap Event.wire).length ≤ (K.letters rs).length :=
    (List.subperm_of_subset hl.once (fun msg hm => posted_letters (hl.posted msg hm))).length_le
  have hrings : (l.filterMap Event.timed).length ≤ (List.range (rs i).rs.view).length :=
    (List.subperm_of_subset hl.rings (fun v hv => List.mem_range.mpr (hl.rung v hv))).length_le
  have hjudged : (K.judged (rs i)).card ≤ (Finset.range K.numBlocks).card :=
    Finset.card_filter_le _ _
  have hletters := h.letters_le hK
  have hanswers := hl.answers
  rw [List.length_range] at hrings
  rw [Finset.card_range] at hjudged
  rw [log_length, Cluster.maxEvents]
  omega

theorem judged_mono {w : Wiring C} {keys : Nat → Option C.Key} {ev : Option (Event C)}
    {m m' : Machine C} (hs : Machine.Step keys w ev m m') (hw : ¬ Wraps m.replica m'.replica) :
    K.judged m.replica ⊆ K.judged m'.replica := by
  have hm : Moves keys (fun _ => True) w m.replica m'.replica :=
    step_moves hs hw (fun _ _ => trivial)
  intro k hk
  obtain ⟨hk, hjudged⟩ := Finset.mem_filter.mp hk
  exact Finset.mem_filter.mpr ⟨hk, moves_invariant
    (P := fun r => (r.rs.validationResult (nodeHash (K.workload.course k))).isSome)
    (fun _ _ h hm => hm.verdict_keeps h) hm hjudged⟩

/-- The worker's answer is on a block that there was no verdict on. -/
theorem Queued.answer_judges {w : Wiring C} {keys : Nat → Option C.Key} {m m' : Machine C}
    (h : Queued K m.replica) (hs : Machine.Step keys w (some (.validated 0)) m m')
    (hw : ¬ Wraps m.replica m'.replica) (hq : m.replica.valReqs ≠ []) :
    (K.judged m.replica).card < (K.judged m'.replica).card := by
  apply Finset.card_lt_card
  refine Finset.ssubset_iff_subset_ne.mpr ⟨judged_mono hs hw, ?_⟩
  obtain ⟨_, hm, _, _, hworker⟩ := h.worker
  cases hworker with
  | idle m free queue judged => exact absurd queue hq
  | busy k req input pending queue names unjudged judged =>
    intro hsame
    have hk : k ∉ K.judged m.replica := fun hk => unjudged (Finset.mem_filter.mp hk).2
    refine hk (hsame ▸ Finset.mem_filter.mpr ⟨Finset.mem_range.mpr hm, ?_⟩)
    cases hs with
    | event ev r r' running ran =>
      change r.valReqs = _ at queue
      simp only [handleEvent, queue, List.getElem?_cons_zero] at ran
      obtain ⟨out, hran, rfl⟩ := map_ok.mp ran
      simp [ingestValidation, runValidation_nodeHash hran, names]

theorem Diary.start : Diary K [] rs i where
  once := .nil
  posted := nofun
  rings := .nil
  rung := nofun
  answers := Nat.zero_le _

theorem Diary.mono {l : List (Event C)} {rs' : Nat → Replica C} (h : Diary K l rs i)
    (hg : ∀ j, (rs j).effects <+: (rs' j).effects) (hv : (rs i).rs.view ≤ (rs' i).rs.view)
    (hj : K.judged (rs i) ⊆ K.judged (rs' i)) : Diary K l rs' i where
  once := h.once
  posted msg hm := K.posted_growing rs rs' hg i msg (h.posted msg hm)
  rings := h.rings
  rung v hmem := (h.rung v hmem).trans_le hv
  answers := h.answers.trans (Finset.card_le_card hj)

theorem wire_eq_some {ev : Event C} {msg : Wire C} : ev.wire = some msg ↔ ev = .message msg := by
  cases ev <;> simp [Event.wire]

theorem timed_eq_some {ev : Event C} {v : Nat} : ev.timed = some v ↔ ev = .timer v := by
  cases ev <;> simp [Event.timed]

/-- A due event is new to the diary. -/
theorem Diary.next {l : List (Event C)} {ev : Event C} (h : Diary K l rs i)
    (hmsg : ∀ msg, ev = .message msg → K.Posted rs i msg ∧ .message msg ∉ l)
    (htimer : ∀ v, ev = .timer v → v < (rs i).rs.view ∧ .timer v ∉ l)
    (hanswer : ev.isAnswer → l.countP Event.isAnswer < (K.judged (rs i)).card) :
    Diary K (l ++ [ev]) rs i where
  once := by
    refine nodup_filterMap_snoc h.once (fun msg hw hmem => ?_)
    obtain ⟨ev', hev', hw'⟩ := List.mem_filterMap.mp hmem
    exact (hmsg msg (wire_eq_some.mp hw)).2 (wire_eq_some.mp hw' ▸ hev')
  posted := by
    intro msg hm
    rcases mem_filterMap_snoc.mp hm with hm | hw
    · exact h.posted msg hm
    · exact (hmsg msg (wire_eq_some.mp hw)).1
  rings := by
    refine nodup_filterMap_snoc h.rings (fun v ht hmem => ?_)
    obtain ⟨ev', hev', ht'⟩ := List.mem_filterMap.mp hmem
    exact (htimer v (timed_eq_some.mp ht)).2 (timed_eq_some.mp ht' ▸ hev')
  rung := by
    intro v hv
    rcases mem_filterMap_snoc.mp hv with hv | ht
    · exact h.rung v hv
    · exact (htimer v (timed_eq_some.mp ht)).1
  answers := by
    rw [List.countP_append]
    cases hans : ev.isAnswer with
    | true => simpa [hans, Nat.succ_le_iff] using hanswer hans
    | false => simpa [hans] using h.answers

theorem Cluster.Prompt.diary (hinj : Function.Injective (nodeHash (C := C)))
    (hgen : ∀ node : Node C, nodeHash node ≠ genesisHash C) (hK : K.Faultless)
    (h : K.Prompt t log s) (hj : K.Honest j) : Diary K (log j) s.replicas j := by
  induction h generalizing j with
  | start => exact .start
  | @step t log s i ev m hrun hi hdue hstep ih =>
    have hcalm := hrun.calm hinj hgen hK
    have hbound : ¬ Wraps (s i).replica m.replica := by
      have hsmall := hcalm.view_small hinj hgen hK hi
      exact fun hwraps => absurd hwraps.1 (by omega)
    have hgrow : ∀ j, (s.replicas j).effects <+:
        (System.replicas (Function.update s i m) j).effects := by
      have hm : Moves K.peerKeys (fun _ => True) (K.wiring i) (s i).replica m.replica :=
        step_moves hstep hbound (fun _ _ => trivial)
      rw [replicas_update]
      exact update_grows (moves_invariant (P := fun r => (s i).replica.effects <+: r.effects)
        (fun _ _ h hm => h.trans hm.effects_grow) hm List.prefix_rfl)
    by_cases hji : j = i
    · subst j
      have hnow : System.replicas (Function.update s i m) i = m.replica := by
        simp [System.replicas]
      have hview := step_view_mono hstep hbound
      have hold : Diary K (log i) (System.replicas (Function.update s i m)) i := by
        refine (ih hi).mono hgrow ?_ ?_ <;> rw [hnow]
        · exact hview
        · exact judged_mono hstep hbound
      rw [Function.update_self]
      cases ev with
      | none => simpa using hold
      | some ev =>
        refine hold.next ?_ ?_ ?_
        · rintro msg rfl
          exact ⟨K.posted_growing _ _ hgrow i msg hdue.1, hdue.2⟩
        · rintro v rfl
          rw [hnow]
          exact ⟨hdue.2.1.trans_le hview, hdue.2.2⟩
        · intro hans
          cases ev with
          | validated k =>
            obtain ⟨rfl, hq⟩ := hdue
            rw [hnow]
            exact (ih hi).answers.trans_lt
              ((hcalm.queued hinj hgen hK hi).answer_judges hstep hbound hq)
          | _ => cases hans
    · rw [Function.update_of_ne hji]
      have hsame : System.replicas (Function.update s i m) j = s.replicas j := by
        simp [System.replicas, hji]
      exact (ih hj).mono hgrow (by rw [hsame]) (by rw [hsame])

theorem Cluster.Prompt.bounded (hinj : Function.Injective (nodeHash (C := C)))
    (hgen : ∀ node : Node C, nodeHash node ≠ genesisHash C) (hK : K.Faultless)
    (h : K.Prompt t log s) : t ≤ K.maxSteps := by
  have hsteady := (h.calm hinj hgen hK).steady hinj hgen hK
  have heach : ∀ j ∈ Finset.range K.n, 11 * (log j).length + 10 ≤ 11 * K.maxEvents + 10 := by
    intro j hj
    have hhonest : K.Honest j := ⟨Finset.mem_range.mp hj, by simp [hK.free]⟩
    have hle := (h.diary hinj hgen hK hhonest).length_le hsteady hK hhonest
    omega
  calc t ≤ t + ∑ j ∈ Finset.range K.n, (s j).todo.length := Nat.le_add_right _ _
    _ = ∑ j ∈ Finset.range K.n, (11 * (log j).length + 10) := h.steps
    _ ≤ (Finset.range K.n).card • (11 * K.maxEvents + 10) := Finset.sum_le_card_nsmul _ _ _ heach
    _ = K.maxSteps := by simp [Cluster.maxSteps]

/-- A step that keeps the run prompt. -/
def Cluster.Pending (K : Cluster C) (log : Nat → List (Event C)) (s : System C) : Prop :=
  ∃ i ev m, K.Honest i ∧ K.Due log s i ev ∧
    Machine.Step K.peerKeys (K.wiring i) ev (s i) m

/-- A due event can be taken by a node that is idle and not finished. -/
theorem Cluster.Calm.pending (hinj : Function.Injective (nodeHash (C := C)))
    (hgen : ∀ node : Node C, nodeHash node ≠ genesisHash C) (hK : K.Faultless)
    (hw : WellFormed K.workload) (hsums : SumsFit (K.wiring i)) (hcalm : K.Calm log s)
    (hi : K.Honest i) (ev : Event C)
    (hidle : (s i).todo = []) (hrunning : ¬ finished (K.wiring i) (s i).replica)
    (hdue : K.Due log s i (some ev)) : K.Pending log s := by
  obtain ⟨r', hran⟩ := calm_event_runs hinj hgen hK hw hsums hcalm hi ev
    (by rintro msg rfl; exact hdue.1) (by rintro v rfl; exact hdue.2.1)
  refine ⟨i, some ev, ⟨r', passOrder⟩, hi, hdue, ?_⟩
  have hm : s i = ⟨(s i).replica, []⟩ := by rw [← hidle]
  rw [hm]
  exact .event ev _ r' hrunning hran

/-- A calm run that nothing is left to do for is spent. -/
theorem Cluster.Calm.spent (hinj : Function.Injective (nodeHash (C := C)))
    (hgen : ∀ node : Node C, nodeHash node ≠ genesisHash C) (hacyc : Acyclic C) (hK : K.Faultless)
    (hw : WellFormed K.workload) (hroots : ∀ i, K.Honest i → RootsChain (K.wiring i))
    (hsums : ∀ i, K.Honest i → SumsFit (K.wiring i)) (hcalm : K.Calm log s)
    (hstop : ¬ K.Pending log s) : K.Spent log s := by
  have hidle : ∀ i, K.Honest i → (s i).todo = [] := by
    intro i hi
    cases htodo : (s i).todo with
    | nil => rfl
    | cons rule rest =>
      obtain ⟨r', hran⟩ := calm_rule_runs hinj hgen hacyc hK hw hroots hcalm hi .asStored rule
      have hm : s i = ⟨(s i).replica, rule :: rest⟩ := by rw [← htodo]
      exact (hstop ⟨i, none, ⟨r', rest⟩, hi, trivial,
        hm ▸ .rule .asStored rule rest _ r' hran⟩).elim
  refine ⟨hidle, ?_, ?_, ?_⟩
  · intro i hi hrunning msg hp
    by_contra hnew
    exact hstop (hcalm.pending hinj hgen hK hw (hsums i hi) hi (.message msg) (hidle i hi) hrunning
      ⟨hp, hnew⟩)
  · intro i hi hrunning
    by_contra hq
    exact hstop (hcalm.pending hinj hgen hK hw (hsums i hi) hi (.validated 0) (hidle i hi) hrunning
      ⟨rfl, hq⟩)
  · intro i hi hrunning v ms harmed hlt
    by_contra hnew
    exact hstop (hcalm.pending hinj hgen hK hw (hsums i hi) hi (.timer v) (hidle i hi) hrunning
      ⟨⟨ms, harmed⟩, hlt, hnew⟩)

theorem Cluster.Prompt.progress (hinj : Function.Injective (nodeHash (C := C)))
    (hgen : ∀ node : Node C, nodeHash node ≠ genesisHash C) (hacyc : Acyclic C) (hK : K.Faultless)
    (hw : WellFormed K.workload) (hroots : ∀ i, K.Honest i → RootsChain (K.wiring i))
    (hsums : ∀ i, K.Honest i → SumsFit (K.wiring i)) (h : K.Prompt t log s) :
    K.Pending log s ∨ ∀ i, K.Honest i → finished (K.wiring i) (s i).replica := by
  by_cases hstop : K.Pending log s
  · exact Or.inl hstop
  · have hcalm := h.calm hinj hgen hK
    have hspent := hcalm.spent hinj hgen hacyc hK hw hroots hsums hstop
    exact Or.inr (hspent.completes hinj hgen hK hcalm)

/-- A fault-free cluster whose timers do not go off early is done after a bounded
number of steps, in whatever order its nodes take their messages: as long as some
node has blocks to execute there is a step to take. -/
theorem prompt_runs_complete (hinj : Function.Injective (nodeHash (C := C)))
    (hgen : ∀ node : Node C, nodeHash node ≠ genesisHash C) (hacyc : Acyclic C) (hK : K.Faultless)
    (hw : WellFormed K.workload) (hroots : ∀ i, K.Honest i → RootsChain (K.wiring i))
    (hsums : ∀ i, K.Honest i → SumsFit (K.wiring i)) (h : K.Prompt t log s) : t ≤ K.maxSteps ∧
      (K.Pending log s ∨ ∀ i, K.Honest i → finished (K.wiring i) (s i).replica) :=
  ⟨h.bounded hinj hgen hK, h.progress hinj hgen hacyc hK hw hroots hsums⟩

/-- Two nodes get through their three blocks. -/
theorem pair_completes : ∃ t ≤ Pair.cluster.maxSteps, ∃ log s, Pair.cluster.Prompt t log s ∧
    ∀ i, Pair.cluster.Honest i → finished (Pair.cluster.wiring i) (s i).replica := by
  have hruns := fun t (a : (Nat → List (Event _)) × System _) (h : Pair.cluster.Prompt t a.1 a.2) =>
    prompt_runs_complete tabled_nodes_apart tabled_nodes_fresh Quartet.acyclic Pair.faultless
      Quartet.threeBlocks_wellFormed (fun i _ => Pair.roots_chain i)
      (fun i _ => Pair.sums_fit i) h
  obtain ⟨t, a, hrun, hdone⟩ := bounded_run_ends
    (fun t (a : (Nat → List (Event _)) × System _) => Pair.cluster.Prompt t a.1 a.2)
    (fun a => ∀ i, Pair.cluster.Honest i → finished (Pair.cluster.wiring i) (a.2 i).replica)
    (fun t a h => (hruns t a h).1) (fun t a h => (hruns t a h).2.symm.imp_right
      (fun ⟨i, ev, m, hi, hdue, hstep⟩ => ⟨(_, _), h.step i ev m hi hdue hstep⟩))
    (a := (_, _)) (Cluster.Prompt.start (K := Pair.cluster))
  exact ⟨t, (hruns t a hrun).1, a.1, a.2, hrun, hdone⟩

end
end ZkStf
