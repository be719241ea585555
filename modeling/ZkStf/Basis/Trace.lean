import Mathlib.Data.List.Basic
import Mathlib.Tactic.Common

namespace ZkStf.Basis

section
variable {σ : Type u} {α : Type v}

/-- Take the acts one by one; `none` once an act is not possible. -/
def follow (step : σ → α → Option σ) : σ → List α → Option σ
  | s, [] => some s
  | s, a :: rest => (step s a).bind (fun s' => follow step s' rest)

/-- Induction over a trace, from its first act on. -/
theorem follow_invariant {step : σ → α → Option σ} {P : List α → σ → Prop} {s s' : σ}
    {acts : List α} (h0 : P [] s)
    (hs : ∀ past s a s', P past s → step s a = some s' → P (past ++ [a]) s')
    (h : follow step s acts = some s') : P acts s' := by
  have hrun : ∀ (rest past : List α) (s : σ), P past s → follow step s rest = some s' →
      P (past ++ rest) s' := by
    intro rest
    induction rest with
    | nil =>
      intro past s hp hr
      cases hr
      simpa using hp
    | cons a rest ih =>
      intro past s hp hr
      obtain ⟨mid, ha, hrest⟩ := Option.bind_eq_some_iff.mp hr
      simpa using ih (past ++ [a]) mid (hs past s a mid hp ha) hrest
  exact hrun acts [] s h0 h

end
end ZkStf.Basis
