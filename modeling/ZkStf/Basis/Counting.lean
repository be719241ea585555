import Mathlib.Algebra.BigOperators.Group.Finset.Piecewise
import Mathlib.Algebra.GroupWithZero.Nat
import Mathlib.Algebra.Order.BigOperators.Group.List
import Mathlib.Algebra.Order.BigOperators.Group.Finset
import Mathlib.Data.List.Perm.Basic

namespace ZkStf.Basis

/-- Changing one entry of a family changes the sum over it by that entry. -/
theorem sum_update (f : Nat → α → Nat) (g : Nat → α) {n i : Nat} (hi : i < n) (x : α) :
    ∑ j ∈ Finset.range n, f j (Function.update g i x j) + f i (g i) =
      ∑ j ∈ Finset.range n, f j (g j) + f i x := by
  have hmem : i ∈ Finset.range n := Finset.mem_range.mpr hi
  have hcomp : ∀ j, f j (Function.update g i x j) =
      Function.update (fun j => f j (g j)) i (f i x) j := by
    intro j
    simp only [Function.update_apply]
    split
    · subst j
      rfl
    · rfl
  rw [Finset.sum_congr rfl (fun j _ => hcomp j), Finset.sum_update_of_mem hmem,
    ← Finset.add_sum_erase _ _ hmem, Finset.sdiff_singleton_eq_erase]
  omega

/-- The sum over a family with one exception. -/
theorem sum_one_else {n i : Nat} (hi : i < n) (a b : Nat) :
    ∑ j ∈ Finset.range n, (if j = i then a else b) = a + (n - 1) * b := by
  have hsum := sum_update (fun _ x => x) (fun _ => b) hi a
  simp only [Function.update_apply, Finset.sum_const, Finset.card_range] at hsum
  change _ = n * b + a at hsum
  obtain ⟨m, rfl⟩ : ∃ m, n = m + 1 := ⟨n - 1, by omega⟩
  rw [Nat.add_mul] at hsum
  rw [Nat.add_sub_cancel]
  omega

theorem length_flatMap_le {f : Nat → List α} {n b : Nat} (h : ∀ j < n, (f j).length ≤ b) :
    ((List.range n).flatMap f).length ≤ n * b := by
  rw [List.length_flatMap]
  have hsum := List.sum_le_card_nsmul ((List.range n).map (fun j => (f j).length)) b (by
    intro x hx
    obtain ⟨j, hj, rfl⟩ := List.mem_map.mp hx
    exact h j (List.mem_range.mp hj))
  simpa using hsum

theorem mem_filterMap_snoc {f : α → Option β} {l : List α} {a : α} {b : β} :
    b ∈ (l ++ [a]).filterMap f ↔ b ∈ l.filterMap f ∨ f a = some b := by
  simp

theorem nodup_filterMap_snoc {f : α → Option β} {l : List α} {a : α} (h : (l.filterMap f).Nodup)
    (hnew : ∀ b, f a = some b → b ∉ l.filterMap f) : ((l ++ [a]).filterMap f).Nodup := by
  rw [List.filterMap_append]
  refine h.append ?_ ?_
  · cases hf : f a with
    | none => simp [hf]
    | some b => simp [hf]
  · intro b hb ha
    obtain ⟨a', ha', hf⟩ := List.mem_filterMap.mp ha
    cases List.mem_singleton.mp ha'
    exact hnew b hf hb

theorem filterMap_eraseIdx_perm {f : α → Option β} {l : List α} {k : Nat} {a : α}
    (h : l[k]? = some a) : ((l.eraseIdx k).filterMap f ++ (f a).toList).Perm (l.filterMap f) := by
  obtain ⟨hk, rfl⟩ := List.getElem?_eq_some_iff.mp h
  have hperm := (List.getElem_cons_eraseIdx_perm hk).filterMap f
  rw [List.filterMap_cons] at hperm
  cases hf : f l[k] with
  | none => simpa [hf] using hperm
  | some b =>
    rw [hf] at hperm
    exact (List.perm_append_singleton b _).trans hperm

theorem count_filterMap_eraseIdx [DecidableEq β] {f : α → Option β} {l : List α} {k : Nat} {a : α}
    (h : l[k]? = some a) (b : β) :
    ((l.eraseIdx k).filterMap f).count b + (f a).toList.count b = (l.filterMap f).count b := by
  rw [← List.count_append]
  exact (filterMap_eraseIdx_perm h).count_eq b

/-- Distinct elements are counted at most as often as in a list that has them all. -/
theorem countP_le_of_nodup [DecidableEq α] {p : α → Bool} {l l' : List α} (hl : l.Nodup)
    (hs : ∀ a ∈ l, p a = true → a ∈ l') : l.countP p ≤ l'.countP p := by
  rw [List.countP_eq_length_filter, List.countP_eq_length_filter]
  apply (List.subperm_of_subset (hl.filter p) _).length_le
  intro a ha
  obtain ⟨hmem, hp⟩ := List.mem_filter.mp ha
  exact List.mem_filter.mpr ⟨hs a hmem hp, hp⟩

/-- Steps that are counted and bounded come to an end. -/
theorem bounded_run_ends (Run : Nat → α → Prop) (Done : α → Prop) {b t : Nat} {a : α}
    (hb : ∀ t a, Run t a → t ≤ b) (hs : ∀ t a, Run t a → Done a ∨ ∃ a', Run (t + 1) a')
    (h : Run t a) : ∃ t a, Run t a ∧ Done a := by
  -- on the steps that are left
  induction hgap : b - t generalizing t a with
  | zero =>
    rcases hs t a h with hdone | ⟨a', hnext⟩
    · exact ⟨t, a, h, hdone⟩
    · have := hb _ _ hnext
      omega
  | succ gap ih =>
    rcases hs t a h with hdone | ⟨a', hnext⟩
    · exact ⟨t, a, h, hdone⟩
    · exact ih hnext (by omega)

end ZkStf.Basis
