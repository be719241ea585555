import Mathlib.Algebra.Order.BigOperators.Group.List
import Mathlib.Algebra.Order.Group.Nat
import Mathlib.Data.List.Nodup
import Mathlib.Data.List.Lookmap
import Mathlib.Tactic.Common

namespace ZkStf.Basis

/-- A finite map kept as its list of entries, oldest key first. The reader of
the entries may still permute them: only `get?` is meant to be order free. -/
structure EntryMap (α β : Type) where
  entries : List (α × β)
  nodup : (entries.map Prod.fst).Nodup

namespace EntryMap
variable {α β : Type} [DecidableEq α]

def empty : EntryMap α β := ⟨[], List.nodup_nil⟩

def keys (m : EntryMap α β) : List α := m.entries.map Prod.fst

def size (m : EntryMap α β) : Nat := m.entries.length

def get? (m : EntryMap α β) (k : α) : Option β := m.entries.lookup k

/-- Overwrite the entry of a known key where it stands, append a new one. -/
def put (k : α) (b : β) : List (α × β) → List (α × β)
  | [] => [(k, b)]
  | e :: es => if e.1 = k then (k, b) :: es else e :: put k b es

theorem put_keys (k : α) (b : β) (es : List (α × β)) :
    (put k b es).map Prod.fst =
      if k ∈ es.map Prod.fst then es.map Prod.fst else es.map Prod.fst ++ [k] := by
  induction es with
  | nil => simp [put]
  | cons e es ih =>
    by_cases he : e.1 = k
    · simp [put, he]
    · have hk : ¬ k = e.1 := fun h => he h.symm
      simp only [put, he, ↓reduceIte, List.map_cons, ih, List.mem_cons, hk, false_or]
      split <;> simp

theorem put_nodup (k : α) (b : β) (es : List (α × β)) (h : (es.map Prod.fst).Nodup) :
    ((put k b es).map Prod.fst).Nodup := by
  rw [put_keys]
  split
  · exact h
  · rename_i hk
    simpa [List.nodup_append] using ⟨h, fun a c hm he => hk (he ▸ List.mem_map.mpr ⟨_, hm, rfl⟩)⟩

def insert (m : EntryMap α β) (k : α) (b : β) : EntryMap α β :=
  ⟨put k b m.entries, put_nodup k b m.entries m.nodup⟩

/-- The vacant-entry insertion: a key that is present keeps its value. -/
def insertNew (m : EntryMap α β) (k : α) (b : β) : EntryMap α β :=
  if (m.get? k).isSome then m else m.insert k b

def erase (m : EntryMap α β) (k : α) : EntryMap α β :=
  ⟨m.entries.filter (fun e => e.1 ≠ k), m.nodup.sublist (List.filter_sublist.map Prod.fst)⟩

@[simp] theorem get?_empty (k : α) : (empty : EntryMap α β).get? k = none := rfl

theorem lookup_cons_ite (e : α × β) (es : List (α × β)) (a : α) :
    (e :: es).lookup a = if a = e.1 then some e.2 else es.lookup a := by
  obtain ⟨c, d⟩ := e
  by_cases h : a = c
  · simp [h]
  · have hb : (a == c) = false := by simpa using h
    simp [List.lookup_cons, h, hb]

theorem lookup_put (k a : α) (b : β) (es : List (α × β)) :
    (put k b es).lookup a = if a = k then some b else es.lookup a := by
  induction es with
  | nil => simp [put, lookup_cons_ite]
  | cons e es ih =>
    by_cases he : e.1 = k
    · by_cases ha : a = k <;> simp [put, he, ha, lookup_cons_ite]
    · by_cases ha : a = e.1
      · have hk : ¬ a = k := fun h => he (ha ▸ h)
        simp [put, he, ha, lookup_cons_ite]
      · simp [put, he, ha, lookup_cons_ite, ih]

theorem get?_insert (m : EntryMap α β) (k a : α) (b : β) :
    (m.insert k b).get? a = if a = k then some b else m.get? a :=
  lookup_put k a b m.entries

@[simp] theorem get?_insert_self (m : EntryMap α β) (k : α) (b : β) :
    (m.insert k b).get? k = some b := by
  simp [get?_insert]

theorem get?_erase (m : EntryMap α β) (k a : α) :
    (m.erase k).get? a = if a = k then none else m.get? a := by
  unfold erase get?
  dsimp only
  induction m.entries with
  | nil => simp
  | cons e es ih =>
    by_cases he : e.1 = k
    · by_cases ha : a = k
      · simp [he, ha] at ih ⊢
        exact ih
      · simp [he, ha, lookup_cons_ite] at ih ⊢
        exact ih
    · by_cases ha : a = k
      · have hk : ¬ k = e.1 := fun h => he h.symm
        simp [he, ha, hk, lookup_cons_ite] at ih ⊢
        exact ih
      · simp [he, ha, lookup_cons_ite] at ih ⊢
        rw [ih]

theorem lookup_eq_some (es : List (α × β)) (h : (es.map Prod.fst).Nodup) (k : α) (b : β) :
    es.lookup k = some b ↔ (k, b) ∈ es := by
  induction es with
  | nil => simp
  | cons e es ih =>
    obtain ⟨c, d⟩ := e
    simp only [List.map_cons, List.nodup_cons] at h
    rw [lookup_cons_ite]
    by_cases hk : k = c
    · subst c
      have hout : (k, b) ∉ es := fun hm => h.1 (List.mem_map.mpr ⟨_, hm, rfl⟩)
      simp [hout, eq_comm]
    · simp [hk, ih h.2]

/-- Looking a key up and reading the entries agree, since no key is twice there. -/
theorem get?_eq_some {m : EntryMap α β} {k : α} {b : β} :
    m.get? k = some b ↔ (k, b) ∈ m.entries :=
  lookup_eq_some m.entries m.nodup k b

theorem mem_keys {m : EntryMap α β} {k : α} : k ∈ m.keys ↔ (m.get? k).isSome := by
  constructor
  · intro h
    obtain ⟨⟨a, b⟩, hm, rfl⟩ := List.mem_map.mp h
    rw [get?_eq_some.mpr hm]
    rfl
  · intro h
    obtain ⟨b, hb⟩ := Option.isSome_iff_exists.mp h
    exact List.mem_map.mpr ⟨_, get?_eq_some.mp hb, rfl⟩

theorem get?_insertNew {m : EntryMap α β} {k a : α} {b c : β}
    (h : (m.insertNew k b).get? a = some c) :
    m.get? a = some c ∨ (a = k ∧ c = b ∧ m.get? k = none) := by
  unfold insertNew at h
  split at h
  · exact Or.inl h
  · rename_i hn
    rw [get?_insert] at h
    split at h
    · exact Or.inr ⟨by assumption, (Option.some.inj h).symm, by simpa using hn⟩
    · exact Or.inl h

theorem isSome_insert {m : EntryMap α β} {k a : α} {b : β} :
    ((m.insert k b).get? a).isSome ↔ a = k ∨ (m.get? a).isSome := by
  rw [get?_insert]
  split
  · simp [*]
  · simp [*]

theorem isSome_insertNew {m : EntryMap α β} {k a : α} {b : β} :
    ((m.insertNew k b).get? a).isSome ↔ a = k ∨ (m.get? a).isSome := by
  unfold insertNew
  split
  · constructor
    · exact Or.inr
    · rintro (rfl | h)
      · assumption
      · exact h
  · exact isSome_insert

theorem length_le_size {m : EntryMap α β} {l : List α} (hl : l.Nodup)
    (h : ∀ a ∈ l, (m.get? a).isSome) : l.length ≤ m.size := by
  have hsub : l ⊆ m.keys := fun a ha => mem_keys.mpr (h a ha)
  simpa [keys, size] using (List.subperm_of_subset hl hsub).length_le

/-- A map whose keys are all in a list no longer than it has all of them. -/
theorem isSome_of_size {m : EntryMap α β} {l : List α} (hl : l.length ≤ m.size)
    (h : ∀ a, (m.get? a).isSome → a ∈ l) {a : α} (ha : a ∈ l) : (m.get? a).isSome := by
  have hsub : m.keys ⊆ l := fun a ha => h a (mem_keys.mp ha)
  have hkeys : l.length ≤ m.keys.length := by simpa [keys, size] using hl
  have hperm := (List.subperm_of_subset m.nodup hsub).perm_of_length_le hkeys
  exact mem_keys.mp (hperm.mem_iff.mpr ha)

/-- What the entries of a value give when only one key can have it. -/
theorem filterMap_value [DecidableEq β] {m : EntryMap α β} {k : α} {b : β}
    (h : ∀ a, m.get? a = some b → a = k) (f : α → Option γ) :
    m.entries.filterMap (fun e => if e.2 = b then f e.1 else none) =
      if m.get? k = some b then (f k).toList else [] := by
  have hkey : ∀ e ∈ m.entries, e.2 = b → e.1 = k := by
    rintro ⟨a, _⟩ he rfl
    exact h a (get?_eq_some.mpr he)
  by_cases hk : m.get? k = some b
  · obtain ⟨before, after, heq⟩ := List.append_of_mem (get?_eq_some.mp hk)
    have hnodup := m.nodup
    have hother : ∀ es : List (α × β), (∀ e ∈ es, e ∈ m.entries ∧ e.1 ≠ k) →
        es.filterMap (fun e => if e.2 = b then f e.1 else none) = [] := by
      intro es hes
      refine List.filterMap_eq_nil_iff.mpr (fun e he => if_neg (fun hb => ?_))
      exact (hes e he).2 (hkey e (hes e he).1 hb)
    rw [heq] at hnodup hother
    simp only [List.map_append, List.map_cons, List.nodup_append, List.nodup_cons] at hnodup
    rw [if_pos hk, heq, List.filterMap_append, List.filterMap_cons,
      hother before (fun e he => ⟨by simp [he], ?_⟩), hother after (fun e he => ⟨by simp [he], ?_⟩)]
    · simp only [if_true, List.nil_append]
      cases f k <;> rfl
    · rintro rfl
      exact hnodup.2.1.1 (List.mem_map_of_mem he)
    · rintro rfl
      exact hnodup.2.2 _ (List.mem_map_of_mem he) _ (by simp) rfl
  · rw [if_neg hk]
    refine List.filterMap_eq_nil_iff.mpr (fun e he => if_neg (fun hb => hk ?_))
    exact get?_eq_some.mpr (hkey e he hb ▸ hb ▸ he)

section sum
variable {M : Type} [AddCommMonoid M]

/-- The sum of a measure over all entries. -/
def sum (f : β → M) (m : EntryMap α β) : M := (m.entries.map (fun e => f e.2)).sum

theorem put_sum (f : β → M) (k : α) (b : β) (es : List (α × β)) :
    ((put k b es).map (fun e => f e.2)).sum + ((es.lookup k).map f).getD 0 =
      (es.map (fun e => f e.2)).sum + f b := by
  induction es with
  | nil => simp [put]
  | cons e es ih =>
    rw [lookup_cons_ite]
    by_cases he : e.1 = k
    · subst he
      simp only [put, ↓reduceIte, List.map_cons, List.sum_cons, Option.map_some, Option.getD_some]
      rw [add_comm (f b), add_comm (f e.2), add_right_comm]
    · have hk : ¬ k = e.1 := fun h => he h.symm
      simp only [put, he, hk, ↓reduceIte, List.map_cons, List.sum_cons, add_assoc, ih]

/-- Writing an entry trades the old value's share of the sum for the new one's. -/
theorem sum_insert (f : β → M) (m : EntryMap α β) (k : α) (b : β) :
    (m.insert k b).sum f + ((m.get? k).map f).getD 0 = m.sum f + f b :=
  put_sum f k b m.entries

end sum

theorem le_sum (f : β → Nat) {m : EntryMap α β} {k : α} {b : β} (h : m.get? k = some b) :
    f b ≤ m.sum f :=
  List.le_sum_of_mem (List.mem_map.mpr ⟨_, get?_eq_some.mp h, rfl⟩)

end EntryMap
end ZkStf.Basis
