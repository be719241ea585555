import Mathlib.Data.List.Perm.Basic
import Mathlib.Tactic.Common

namespace ZkStf.Basis.Backfill
variable (present valid : Nat → Prop) [DecidablePred present] [DecidablePred valid]

/-- Up to `n` levels, as long as they are valid. -/
def climb : Nat → Nat → Nat
  | 0, level => level
  | n + 1, level => if valid level then climb n (level + 1) else level

/-- One attempt to catch up with a target: nothing happens while a level on the
way to it is missing, otherwise the levels are taken up to the target or to the
first one that is not valid. -/
def advance (level target : Nat) : Nat :=
  if ∀ i < target + 1, level ≤ i → present i then climb valid (target + 1 - level) level
  else level

theorem le_climb (n level : Nat) : level ≤ climb valid n level := by
  induction n generalizing level with
  | zero => exact Nat.le_refl _
  | succ n ih =>
    unfold climb
    split
    · exact Nat.le_trans (Nat.le_succ level) (ih (level + 1))
    · exact Nat.le_refl _

theorem climb_le (n level : Nat) : climb valid n level ≤ level + n := by
  induction n generalizing level with
  | zero => exact Nat.le_refl _
  | succ n ih =>
    unfold climb
    split
    · have h := ih (level + 1)
      omega
    · omega

variable {present valid} {level target : Nat}

theorem climb_valid {n i : Nat} (hl : level ≤ i) (hi : i < climb valid n level) : valid i := by
  induction n generalizing level with
  | zero => exact absurd hi (by simp only [climb]; omega)
  | succ n ih =>
    unfold climb at hi
    split at hi
    · rename_i hv
      rcases Nat.eq_or_lt_of_le hl with rfl | hlt
      · exact hv
      · exact ih hlt hi
    · omega

theorem climb_stuck {n : Nat} (h : climb valid n level < level + n) :
    ¬ valid (climb valid n level) := by
  induction n generalizing level with
  | zero => exact absurd h (by simp [climb])
  | succ n ih =>
    unfold climb at h ⊢
    split
    · rename_i hv
      rw [if_pos hv] at h
      exact ih (by omega)
    · assumption

/-- A climb is the way up to the first level that is not valid, or to its bound. -/
theorem climb_unique {n top : Nat} (hl : level ≤ top) (hn : top ≤ level + n)
    (hv : ∀ i, level ≤ i → i < top → valid i) (hs : top < level + n → ¬ valid top) :
    climb valid n level = top := by
  have hlow := le_climb valid n level
  have hhigh := climb_le valid n level
  rcases Nat.lt_trichotomy (climb valid n level) top with hlt | heq | hgt
  · exact absurd (hv _ hlow hlt) (climb_stuck (by omega))
  · exact heq
  · exact absurd (climb_valid hl hgt) (hs (by omega))

theorem advance_connected (h : ∀ i, level ≤ i → i ≤ target → present i) :
    advance present valid level target = climb valid (target + 1 - level) level :=
  if_pos (fun i hi hl => h i hl (by omega))

theorem advance_cut {i : Nat} (hl : level ≤ i) (ht : i ≤ target) (h : ¬ present i) :
    advance present valid level target = level :=
  if_neg (fun hall => h (hall i (by omega) hl))

theorem connected_or_cut (present : Nat → Prop) (level target : Nat) :
    (∀ i, level ≤ i → i ≤ target → present i) ∨ ∃ i, level ≤ i ∧ i ≤ target ∧ ¬ present i := by
  by_cases h : ∀ i, level ≤ i → i ≤ target → present i
  · exact Or.inl h
  · simp only [not_forall] at h
    obtain ⟨i, hl, ht, hi⟩ := h
    exact Or.inr ⟨i, hl, ht, hi⟩

/-- An attempt leaves the level alone, or nothing was missing on the way. -/
theorem advance_cases (present valid : Nat → Prop) [DecidablePred present] [DecidablePred valid]
    (level target : Nat) :
    ((∀ i, level ≤ i → i ≤ target → present i) ∧
      advance present valid level target = climb valid (target + 1 - level) level) ∨
    (∃ i, level ≤ i ∧ i ≤ target ∧ ¬ present i) ∧ advance present valid level target = level := by
  rcases connected_or_cut present level target with h | ⟨i, hl, ht, hi⟩
  · exact Or.inl ⟨h, advance_connected h⟩
  · exact Or.inr ⟨⟨i, hl, ht, hi⟩, advance_cut hl ht hi⟩

theorem le_advance (level target : Nat) : level ≤ advance present valid level target := by
  rcases advance_cases present valid level target with ⟨_, h⟩ | ⟨_, h⟩
  · rw [h]
    exact le_climb valid _ _
  · exact Nat.le_of_eq h.symm

/-- A target with nothing missing and nothing invalid on the way is reached. -/
theorem advance_reaches (h : ∀ i, level ≤ i → i ≤ target → present i ∧ valid i) :
    target < advance present valid level target := by
  rw [advance_connected (fun i hl ht => (h i hl ht).1)]
  by_contra hlow
  have hle := le_climb valid (target + 1 - level) level
  exact climb_stuck (by omega) (h _ hle (by omega)).2

/-- Nothing more to take: the target is passed, or the next level is invalid. -/
theorem advance_still (h : target < level ∨ ¬ valid level) :
    advance present valid level target = level := by
  rcases advance_cases present valid level target with ⟨_, heq⟩ | ⟨_, heq⟩
  · rw [heq]
    apply climb_unique (Nat.le_refl _) (by omega) (by omega)
    intro hlt
    exact h.resolve_left (by omega)
  · exact heq

/-- A missing level is never passed. -/
theorem advance_le {i : Nat} (hl : level ≤ i) (h : ¬ present i) :
    advance present valid level target ≤ i := by
  rcases advance_cases present valid level target with
    ⟨hall, heq⟩ | ⟨_, heq⟩
  · have hbeyond : target < i := by
      by_contra hle
      exact h (hall i hl (by omega))
    have hhigh := climb_le valid (target + 1 - level) level
    omega
  · omega

/-- What stops an attempt at a connected target is the next level. -/
theorem advance_stopped (hl : level ≤ target) (hall : ∀ i, level ≤ i → i ≤ target → present i)
    (h : advance present valid level target = level) : ¬ valid level := by
  rw [advance_connected hall] at h
  have hstuck : ¬ valid (climb valid (target + 1 - level) level) := climb_stuck (by omega)
  rwa [h] at hstuck

/-- The nearer of two targets may as well be tried first. -/
theorem advance_swap {near far : Nat} (h : near ≤ far) :
    advance present valid (advance present valid level near) far =
      advance present valid (advance present valid level far) near := by
  rcases advance_cases present valid level far with
    ⟨hall, hfar⟩ | ⟨⟨i, hl, hi, hmiss⟩, hfar⟩
  · have hnear : advance present valid level near = climb valid (near + 1 - level) level :=
      advance_connected (fun i hl hi => hall i hl (Nat.le_trans hi h))
    have hlow := le_climb valid (near + 1 - level) level
    have hhigh := climb_le valid (near + 1 - level) level
    have hfarlow := le_climb valid (far + 1 - level) level
    have hfarhigh := climb_le valid (far + 1 - level) level
    rw [hfar, hnear, advance_connected (fun i hl hi => hall i (by omega) hi)]
    -- the near climb ends no higher than the far one
    have hle : climb valid (near + 1 - level) level ≤ climb valid (far + 1 - level) level := by
      by_contra hgt
      exact climb_stuck (by omega) (climb_valid hfarlow (Nat.not_le.mp hgt))
    rw [climb_unique hle (by omega) (fun i hl hi => climb_valid (by omega) hi)
      (fun hlt => climb_stuck (by omega))]
    symm
    apply advance_still
    by_cases hpast : near < climb valid (far + 1 - level) level
    · exact Or.inl hpast
    · exact Or.inr (climb_stuck (by omega))
  · rw [hfar]
    rcases advance_cases present valid level near with
      ⟨hall, hnear⟩ | ⟨_, hnear⟩
    · -- what is missing lies beyond the near target
      have hbeyond : near < i := by
        by_contra hle
        exact hmiss (hall i hl (by omega))
      have hhigh := climb_le valid (near + 1 - level) level
      rw [hnear]
      exact advance_cut (by omega) hi hmiss
    · rw [hnear]
      exact hfar

instance advance_rightCommutative : RightCommutative (advance present valid) where
  right_comm level a b := by
    rcases Nat.le_total a b with h | h
    · exact advance_swap h
    · exact (advance_swap h).symm

/-- The order of the attempts does not matter. -/
theorem advances_perm {targets targets' : List Nat} (h : targets.Perm targets') (level : Nat) :
    targets.foldl (advance present valid) level = targets'.foldl (advance present valid) level :=
  h.foldl_eq level

end ZkStf.Basis.Backfill
