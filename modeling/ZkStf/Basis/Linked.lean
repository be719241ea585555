import Mathlib.Data.List.Chain
import Mathlib.Logic.Relation
import Mathlib.Tactic.Common

namespace ZkStf.Basis

section
variable {α H : Type} {parent hash : α → H} {root : H} {xs ys : List α} {x : α}

/-- Entries that each name the hash of the one before, the first one a root. -/
structure Linked (parent hash : α → H) (root : H) (xs : List α) : Prop where
  first : ∀ x ∈ xs.head?, parent x = root
  next : xs.IsChain (fun x y => parent y = hash x)

/-- The hash that the next entry has to name. -/
def tip (hash : α → H) (root : H) (xs : List α) : H := (xs.getLast?.map hash).getD root

@[simp] theorem tip_nil : tip hash root [] = root := rfl

@[simp] theorem tip_concat : tip hash root (xs ++ [x]) = hash x := by
  simp [tip]

theorem linked_concat : Linked parent hash root (xs ++ [x]) ↔
    Linked parent hash root xs ∧ parent x = tip hash root xs := by
  induction xs using List.reverseRecOn with
  | nil =>
    constructor
    · intro h
      exact ⟨⟨by simp, by simp⟩, h.first x (by simp)⟩
    · rintro ⟨_, h⟩
      exact ⟨by simpa using h, by simp⟩
  | append_singleton xs y _ =>
    have hhead : (xs ++ [y] ++ [x]).head? = (xs ++ [y]).head? := by
      cases xs <;> simp
    rw [tip_concat]
    constructor
    · intro h
      obtain ⟨hfront, _, hlast⟩ := List.isChain_append.mp h.next
      exact ⟨⟨hhead ▸ h.first, hfront⟩, hlast y (by simp) x (by simp)⟩
    · rintro ⟨h, hlast⟩
      refine ⟨hhead ▸ h.first, List.isChain_append.mpr ⟨h.next, by simp, ?_⟩⟩
      intro a ha b hb
      simp only [List.getLast?_concat, List.head?_cons, Option.mem_some_iff] at ha hb
      rw [← ha, ← hb]
      exact hlast

/-- With a hash that tells entries apart and never returns the root, the tip
determines the whole list. -/
theorem Linked.eq_of_tip (hinj : Function.Injective hash) (hroot : ∀ x, hash x ≠ root)
    (hxs : Linked parent hash root xs) (hys : Linked parent hash root ys)
    (h : tip hash root xs = tip hash root ys) : xs = ys := by
  -- From the tip downwards: equal tips are equal last entries, which name equal parents.
  induction xs using List.reverseRecOn generalizing ys with
  | nil =>
    rcases List.eq_nil_or_concat ys with rfl | ⟨ys, y, rfl⟩
    · rfl
    · simp only [List.concat_eq_append, tip_nil, tip_concat] at h
      exact absurd h.symm (hroot y)
  | append_singleton xs x ih =>
    rcases List.eq_nil_or_concat ys with rfl | ⟨ys, y, rfl⟩
    · rw [tip_nil, tip_concat] at h
      exact absurd h (hroot x)
    · simp only [List.concat_eq_append, tip_concat] at h hys ⊢
      obtain rfl := hinj h
      obtain ⟨hxs, hx⟩ := linked_concat.mp hxs
      obtain ⟨hys, hy⟩ := linked_concat.mp hys
      rw [ih hxs hys (hx.symm.trans hy)]

end

section
variable {α : Type} {up : α → α → Prop} {root : α} {xs ys : List α} {x : α}

/-- A branch: each entry is above the one before, the first one above the root. -/
def Branch (up : α → α → Prop) (root : α) (xs : List α) : Prop :=
  List.IsChain (fun prev next => up next prev) (root :: xs)

theorem branch_concat : Branch up root (xs ++ [x]) ↔
    Branch up root xs ∧ up x (xs.getLastD root) := by
  unfold Branch
  rw [← List.cons_append, List.isChain_append]
  have hlast : (root :: xs).getLast? = some (xs.getLastD root) := by
    simp [List.getLast?_cons]
  simp [hlast]

/-- Nothing is above two entries, and the root is above none. -/
structure Rooted (up : α → α → Prop) (root : α) : Prop where
  unique : Relator.RightUnique up
  lowest : ∀ x, ¬ up root x

theorem Branch.last_ne_root (hr : Rooted up root) (h : Branch up root (xs ++ [x])) : x ≠ root := by
  rintro rfl
  exact hr.lowest _ (branch_concat.mp h).2

theorem Branch.eq_of_last (hr : Rooted up root) (hxs : Branch up root xs) (hys : Branch up root ys)
    (h : xs.getLastD root = ys.getLastD root) : xs = ys := by
  induction ys using List.reverseRecOn generalizing xs with
  | nil =>
    rcases List.eq_nil_or_concat xs with rfl | ⟨xs, x, rfl⟩
    · rfl
    · rw [List.concat_eq_append] at hxs h
      rw [List.getLastD_concat] at h
      exact absurd h (hxs.last_ne_root hr)
  | append_singleton ys y ih =>
    rw [List.getLastD_concat] at h
    rcases List.eq_nil_or_concat xs with rfl | ⟨xs, x, rfl⟩
    · exact absurd h.symm (hys.last_ne_root hr)
    · rw [List.concat_eq_append] at hxs h ⊢
      rw [List.getLastD_concat] at h
      subst h
      obtain ⟨hxs, hx⟩ := branch_concat.mp hxs
      obtain ⟨hys, hy⟩ := branch_concat.mp hys
      rw [ih hxs hys (hr.unique hx hy)]

/-- The branch up to an entry is a part of every branch that goes on from it. -/
theorem Branch.isPrefix (hr : Rooted up root) (hxs : Branch up root xs) (hys : Branch up root ys)
    (h : Relation.ReflTransGen up (ys.getLastD root) (xs.getLastD root)) : xs <+: ys := by
  induction ys using List.reverseRecOn with
  | nil =>
    rcases h.cases_head with heq | ⟨_, hup, _⟩
    · obtain rfl := hxs.eq_of_last hr hys heq.symm
      exact List.prefix_rfl
    · exact absurd hup (hr.lowest _)
  | append_singleton ys y ih =>
    rcases h.cases_head with heq | ⟨below, hup, hrest⟩
    · obtain rfl := hxs.eq_of_last hr hys heq.symm
      exact List.prefix_rfl
    · obtain ⟨hys, hy⟩ := branch_concat.mp hys
      rw [List.getLastD_concat] at hup
      obtain rfl := hr.unique hup hy
      exact (ih hys hrest).trans (List.prefix_append _ _)

end

end ZkStf.Basis
