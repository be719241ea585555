import ZkStf.Proofs.Committed
import ZkStf.Proofs.Promises

namespace ZkStf
open ZkStf.Basis
open ZkStf.Basis.Ballots (Phase)
variable {C : Crypto}

/-- What a rule waits for when it has nothing to do. The backfill and the kickoff
of validations are told apart from the rules of a view. -/
def Rule.Rests (w : Wiring C) (r : Replica C) : Rule → Prop
  | .leaderPrepare => ∃ ord, Withheld w ord r
  | .replicaPrepare => Unproposed r
  | .leaderPreCommit => Uncertified w .prepare r
  | .replicaPreCommit => Unanswered .prepare .preCommit r
  | .leaderCommit => Uncertified w .preCommit r
  | .replicaCommit => Unanswered .preCommit .commit r
  | .leaderDecide => Uncertified w .commit r
  | .replicaDecide => (r.rs.viewData r.rs.view).seen .commit = false ∨
      r.rs.staged .commit r.rs.view = none
  | .retryPendingExecute => True
  | .tryKickPendingValidations => True

/-- The phase whose votes or certificate the condition of a rule reads. -/
def Rule.reads : Rule → Option Phase
  | .leaderPreCommit => some .prepare
  | .replicaPreCommit => some .prepare
  | .leaderCommit => some .preCommit
  | .replicaCommit => some .preCommit
  | .leaderDecide => some .commit
  | .replicaDecide => some .commit
  | _ => none

/-- The phase whose votes or certificate a rule writes. -/
def Rule.writes : Rule → Option Phase
  | .replicaPrepare => some .prepare
  | .leaderPreCommit => some .prepare
  | .replicaPreCommit => some .preCommit
  | .leaderCommit => some .preCommit
  | .replicaCommit => some .commit
  | .leaderDecide => some .commit
  | _ => none

def Rule.place (rule : Rule) : Nat := passOrder.idxOf rule

/-- All that is decided, known and cleared up to some height is executed. -/
def Caught (r : Replica C) : Prop :=
  ∀ (c : Nat → Node C) (k : Nat), Line c k → (r.rs.decidedNodes.get? (nodeHash (c k))).isSome →
    (∀ i ≤ k, Known r.rs.tree c i) → (∀ i ≤ k, Cleared r.rs.validationResult c i) →
    k ≤ r.rs.lastExecutedHeight

section
variable {w : Wiring C} {n : Nat} {r r' : Replica C} {ord : Order}

/-- No rule writes what an earlier one reads. -/
theorem place_apart (earlier rule : Rule) (p : Phase) (h : earlier.place < rule.place)
    (hr : earlier.reads = some p) : rule.writes ≠ some p := by
  revert h hr
  cases earlier <;> cases rule <;> cases p <;> decide

theorem Rule.Rests.proceeds {rule : Rule} (h : rule.Rests w r) (hp : Proceeds r r')
    (hu : ∀ p, rule.reads = some p → Untouched p r r') : rule.Rests w r' := by
  cases rule with
  | leaderPrepare => exact h.imp fun _ hw => hw.proceeds hp
  | replicaPrepare => exact Unproposed.proceeds h hp
  | leaderPreCommit => exact Uncertified.proceeds h hp (hu _ rfl)
  | replicaPreCommit => exact Unanswered.proceeds h hp (hu _ rfl)
  | leaderCommit => exact Uncertified.proceeds h hp (hu _ rfl)
  | replicaCommit => exact Unanswered.proceeds h hp (hu _ rfl)
  | leaderDecide => exact Uncertified.proceeds h hp (hu _ rfl)
  | replicaDecide =>
    unfold Rule.Rests
    rw [hp.view, (hu .commit rfl).seen, (hu .commit rfl).staged]
    exact h
  | retryPendingExecute => trivial
  | tryKickPendingValidations => trivial

/-- A rule that stays in its view has nothing left to do, and touches its own
phase alone. -/
theorem rule_rests (rule : Rule) (h : rule.run w ord r = .ok r')
    (hview : r'.rs.view = r.rs.view) : rule.Rests w r' ∧ (rule ≠ .leaderPrepare → Proceeds r r' ∧
      ∀ p, rule.writes ≠ some p → Untouched p r r') := by
  have hchores : Chores w r r' → Proceeds r r' ∧ ∀ p, Untouched p r r' := fun hc =>
    ⟨(chores_backstage hc).proceeds, fun p => (chores_backstage hc).untouched p⟩
  cases rule with
  | leaderPrepare => exact ⟨⟨ord, (leader_prepare_rests h).2.1⟩, fun hne => absurd rfl hne⟩
  | replicaPrepare =>
    obtain ⟨hp, hrest, hu⟩ := replica_prepare_rests h
    exact ⟨hrest, fun _ => ⟨hp, fun p hw => hu p (fun he => hw (by rw [he]; rfl))⟩⟩
  | leaderPreCommit =>
    obtain ⟨hp, hrest, hu⟩ := leader_qc_rests h
    exact ⟨hrest, fun _ => ⟨hp, fun p hw => hu p (fun he => hw (by rw [he]; rfl))⟩⟩
  | replicaPreCommit =>
    obtain ⟨hp, hrest, hu⟩ := replica_vote_rests holdPrepare_proceeds h
    exact ⟨hrest, fun _ => ⟨hp, fun p hw => hu p (fun he => hw (by rw [he]; rfl))⟩⟩
  | leaderCommit =>
    obtain ⟨hp, hrest, hu⟩ := leader_qc_rests h
    exact ⟨hrest, fun _ => ⟨hp, fun p hw => hu p (fun he => hw (by rw [he]; rfl))⟩⟩
  | replicaCommit =>
    obtain ⟨hp, hrest, hu⟩ := replica_vote_rests holdLock_proceeds h
    exact ⟨hrest, fun _ => ⟨hp, fun p hw => hu p (fun he => hw (by rw [he]; rfl))⟩⟩
  | leaderDecide =>
    obtain ⟨hp, hrest, hu⟩ := leader_qc_rests h
    exact ⟨hrest, fun _ => ⟨hp, fun p hw => hu p (fun he => hw (by rw [he]; rfl))⟩⟩
  | replicaDecide =>
    rcases replica_decide_inv h with ⟨rfl, hrest⟩ | ⟨qc, mid, next, _, _, _, _, _, hnext, rfl⟩
    · exact ⟨hrest, fun _ => ⟨.refl _, fun q _ => .refl q _⟩⟩
    · rw [enterNewView_view] at hview
      have := add_one_cases hnext
      omega
  | retryPendingExecute =>
    obtain ⟨hp, hu⟩ := hchores (retry_chores h)
    exact ⟨trivial, fun _ => ⟨hp, fun p _ => hu p⟩⟩
  | tryKickPendingValidations =>
    obtain ⟨hp, hu⟩ := hchores (kick_leaves_chores h)
    exact ⟨trivial, fun _ => ⟨hp, fun p _ => hu p⟩⟩

/-- What an earlier rule of the pass waits for, it still waits for after a later one. -/
theorem rule_keeps_rest {earlier rule : Rule} (hrest : earlier.Rests w r)
    (hplace : earlier.place < rule.place) (h : rule.run w ord r = .ok r')
    (hview : r'.rs.view = r.rs.view) : earlier.Rests w r' := by
  have hne : rule ≠ .leaderPrepare := by
    rintro rfl
    exact absurd hplace (Nat.not_lt_zero _)
  obtain ⟨hp, hu⟩ := (rule_rests rule h hview).2 hne
  exact hrest.proceeds hp fun p hr => hu p (place_apart earlier rule p hplace hr)

/-- The rules a pass has run come before those it has still to run. -/
theorem done_before {rule : Rule} {rest : List Rule} (h : rule :: rest <:+ passOrder)
    {earlier : Rule} (hdone : earlier ∉ rule :: rest) : earlier.place < rule.place := by
  obtain ⟨front, hfront⟩ := h
  have hsorted : passOrder.Pairwise (fun a b => a.place < b.place) := by decide
  have hmem : earlier ∈ passOrder := by cases earlier <;> decide
  rw [← hfront] at hsorted hmem
  rcases List.mem_append.mp hmem with hmem | hmem
  · exact (List.pairwise_append.mp hsorted).2.2 earlier hmem rule (by simp)
  · exact absurd hmem hdone

theorem reach_started {m : Machine C} (hr : Machine.Reach w n m) : 1 ≤ m.replica.rs.view := by
  apply reach_invariant (P := fun r => 1 ≤ r.rs.view) _ _ hr
  · simp [startProtocol]
  · intro keys r r' h hm
    exact h.trans hm.view_mono

theorem step_view_mono {keys : Nat → Option C.Key} {ev : Option (Event C)} {m m' : Machine C}
    (hs : Machine.Step keys w ev m m') (hw : ¬ Wraps m.replica m'.replica) :
    m.replica.rs.view ≤ m'.replica.rs.view := by
  have hm : Moves keys (fun _ => True) w m.replica m'.replica :=
    step_moves hs hw (fun _ _ => trivial)
  exact moves_invariant (P := fun r => m.replica.rs.view ≤ r.rs.view)
    (fun _ _ h hm => h.trans hm.view_mono) hm le_rfl

/-- Once a node has taken the timer of the view before, its passes run in its
present view: the rules that such a pass is done with rest. `log` tells the events
taken so far. -/
structure Watched (w : Wiring C) (log : List (Event C)) (m : Machine C) : Prop where
  timers : ∀ v, .timer v ∈ log → v < m.replica.rs.view
  rests : m.replica.rs.view = 1 ∨ .timer (m.replica.rs.view - 1) ∈ log →
    ∀ rule, rule ∉ m.todo → rule.Rests w m.replica

theorem Watched.start : Watched w [] (.start w n) where
  timers _ hv := nomatch hv
  rests _ rule hdone := absurd (by cases rule <;> decide : rule ∈ passOrder) hdone

theorem Watched.step {keys : Nat → Option C.Key} {ev : Option (Event C)} {m m' : Machine C}
    {log : List (Event C)} (hr : Machine.Reach w n m) (h : Watched w log m)
    (hs : Machine.Step keys w ev m m') (hw : ¬ Wraps m.replica m'.replica)
    (htimer : ∀ v, ev = some (.timer v) → v < m.replica.rs.view) :
    Watched w (log ++ ev.toList) m' := by
  have hmono := step_view_mono hs hw
  constructor
  · intro v hv
    rcases List.mem_append.mp hv with hv | hv
    · exact (h.timers v hv).trans_le hmono
    · exact (htimer v (Option.mem_toList.mp hv)).trans_le hmono
  · intro hcalled rule hdone
    cases hs with
    | event ev r r' running ran =>
      exact absurd (by cases rule <;> decide : rule ∈ passOrder) hdone
    | rule ord next rest r r' ran =>
      have hone := reach_started hr
      simp only [Option.toList_none, List.append_nil] at hcalled
      dsimp only at hmono hone hcalled hdone
      by_cases hview : r'.rs.view = r.rs.view
      · by_cases hsame : rule = next
        · subst rule
          exact (rule_rests next ran hview).1
        · have hearlier : rule ∉ next :: rest := by simp [hsame, hdone]
          rw [hview] at hcalled
          exact rule_keeps_rest (h.rests hcalled rule hearlier)
            (done_before (reach_todo hr) hearlier) ran hview
      · -- the timer of the view just left has not been taken yet
        rcases hcalled with hfirst | hcalled
        · omega
        · have hlt := h.timers _ hcalled
          dsimp only at hlt
          omega

/-- Within a pass, the rule before the next ones has just run. -/
theorem reach_previous {m : Machine C} (hr : Machine.Reach w n m) (hpass : m.todo ≠ passOrder) :
    ∃ ord rule r, Machine.Reach w n ⟨r, rule :: m.todo⟩ ∧
      rule.run w ord r = .ok m.replica := by
  cases hr with
  | start => exact absurd rfl hpass
  | step keys ev hr hstep _ =>
    cases hstep with
    | event ev r r' running ran => exact absurd rfl hpass
    | rule ord rule rest r r' ran => exact ⟨ord, rule, r, hr, ran⟩

/-- A node between two events is caught up with the decisions. -/
theorem idle_caught (hinj : Function.Injective (nodeHash (C := C)))
    (hgen : ∀ node : Node C, nodeHash node ≠ genesisHash C) {m : Machine C}
    (hr : Machine.Reach w n m) (hidle : m.todo = []) : Caught m.replica := by
  obtain ⟨ord, rule, after, hafter, hkick⟩ := reach_previous hr (by rw [hidle]; decide)
  rw [hidle] at hafter
  have hlast := List.suffix_iff_eq_drop.mp (reach_todo hafter)
  obtain rfl : rule = .tryKickPendingValidations := by simpa [passOrder] using hlast
  obtain ⟨ord', rule', before, hbefore, hretry⟩ := reach_previous hafter (by dsimp only; decide)
  have hlast' := List.suffix_iff_eq_drop.mp (reach_todo hbefore)
  obtain rfl : rule' = .retryPendingExecute := by simpa [passOrder] using hlast'
  have hback := chores_backstage ((retry_chores hretry).trans (kick_leaves_chores hkick))
  intro c k hline hdecided hall hclear
  rw [hback.decidedNodes] at hdecided
  rw [hback.tree] at hall
  rw [hback.validationResult] at hclear
  rw [kick_leaves_last hkick]
  refine execute_decided_reaches hline ?_ ?_ (reach_walkable hinj hgen hbefore)
    (reach_last hbefore) hall (fun i hi _ => hclear i hi) hretry
  · exact (mem_decided ord' before).mpr hdecided
  · exact fun h hh => (mem_decided ord' before).mp hh

end
end ZkStf
