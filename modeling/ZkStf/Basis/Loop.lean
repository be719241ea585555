import Mathlib.Tactic.Common

namespace ZkStf.Basis

section
variable {σ : Type u} {β : Type v}

/-- A loop that comes to an end: each round gives the answer or the state of the
next round. -/
inductive Ends (body : σ → β ⊕ σ) : σ → β → Prop
  | stop (s : σ) (b : β) (last : body s = .inl b) : Ends body s b
  | again (s s' : σ) (b : β) (next : body s = .inr s') (rest : Ends body s' b) : Ends body s b

variable {body : σ → β ⊕ σ} {s s' : σ} {b b' : β}

theorem Ends.unique (h : Ends body s b) (h' : Ends body s b') : b' = b := by
  induction h with
  | stop s b last =>
    cases h' with
    | stop _ _ last' =>
      rw [last] at last'
      exact (Sum.inl.inj last').symm
    | again _ s' _ next _ =>
      rw [last] at next
      cases next
  | again s mid b next rest ih =>
    cases h' with
    | stop _ _ last' =>
      rw [next] at last'
      cases last'
    | again _ mid' _ next' rest' =>
      rw [next] at next'
      cases Sum.inr.inj next'
      exact ih rest'

/-- A loop that ends has one answer. -/
theorem Ends.iff (h : Ends body s b) : Ends body s b' ↔ b' = b := by
  constructor
  · exact h.unique
  · rintro rfl
    exact h

end
end ZkStf.Basis
