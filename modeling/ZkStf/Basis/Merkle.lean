import Mathlib.Data.List.Basic
import Mathlib.Logic.Function.Basic
import Mathlib.Tactic.Common
import Mathlib.Tactic.Ring

namespace ZkStf.Basis.Merkle

section
variable {α : Type} (join : α → α → α)

/-- One pass over the chunks of two. An odd layer has no second element in its
last chunk. -/
def pairUp : List α → Option (List α)
  | [] => some []
  | [_] => none
  | a :: b :: rest => (pairUp rest).map (join a b :: ·)

/-- The bottom-up loop. Every pass halves the layer, so a layer's length is
more passes than it takes; an empty layer has no element to return. -/
def foldLayers : Nat → List α → Option α
  | _, [] => none
  | _, [h] => some h
  | 0, _ :: _ :: _ => none
  | fuel + 1, a :: b :: rest => (pairUp join (a :: b :: rest)).bind (foldLayers fuel)

/-- How many times an element was joined, starting from leaves. -/
inductive Level (leaf : α → Prop) : Nat → α → Prop
  | leaf (a : α) (h : leaf a) : Level leaf 0 a
  | join (k : Nat) (a b : α) (ha : Level leaf k a) (hb : Level leaf k b) :
      Level leaf (k + 1) (join a b)

variable {join} {leaf : α → Prop}

/-- Joins that keep apart whatever differs, and that no leaf is the result of,
determine the level of an element. -/
theorem Level.unique (hinj : ∀ a b c d, join a b = join c d → a = c ∧ b = d)
    (hleaf : ∀ a b, ¬ leaf (join a b)) {i j : Nat} {a : α} (hi : Level join leaf i a)
    (hj : Level join leaf j a) : i = j := by
  induction hi generalizing j with
  | leaf a h =>
    cases hj with
    | leaf => rfl
    | join k b c hb hc => exact absurd h (hleaf b c)
  | join k a b ha hb iha _ =>
    generalize he : join a b = x at hj
    cases hj with
    | leaf _ h => exact absurd (he ▸ h) (hleaf a b)
    | join k' c d hc hd =>
      obtain ⟨rfl, rfl⟩ := hinj a b c d he
      rw [iha hc]

theorem pairUp_length {xs ys : List α} (h : pairUp join xs = some ys) :
    xs.length = 2 * ys.length := by
  fun_induction pairUp join xs generalizing ys with
  | case1 => cases h; rfl
  | case2 => cases h
  | case3 a b rest ih =>
    obtain ⟨zs, hz, rfl⟩ := Option.map_eq_some_iff.mp h
    have hlen := ih hz
    simp only [List.length_cons]
    omega

theorem pairUp_level {xs ys : List α} {k : Nat} (h : pairUp join xs = some ys)
    (hx : ∀ x ∈ xs, Level join leaf k x) : ∀ y ∈ ys, Level join leaf (k + 1) y := by
  fun_induction pairUp join xs generalizing ys with
  | case1 => cases h; simp
  | case2 => cases h
  | case3 a b rest ih =>
    obtain ⟨zs, hz, rfl⟩ := Option.map_eq_some_iff.mp h
    intro y hy
    rcases List.mem_cons.mp hy with rfl | hy
    · exact .join k a b (hx a (by simp)) (hx b (by simp))
    · exact ih hz (fun x hm => hx x (by simp [hm])) y hy

theorem pairUp_some (join : α → α → α) {xs : List α} {m : Nat} (h : xs.length = 2 * m) :
    ∃ ys, pairUp join xs = some ys ∧ ys.length = m := by
  fun_induction pairUp join xs generalizing m with
  | case1 =>
    simp only [List.length_nil] at h
    exact ⟨[], rfl, by simp only [List.length_nil]; omega⟩
  | case2 =>
    simp only [List.length_singleton] at h
    omega
  | case3 a b rest ih =>
    simp only [List.length_cons] at h
    obtain ⟨ys, hy, hlen⟩ := ih (m := m - 1) (by omega)
    refine ⟨join a b :: ys, by rw [hy]; rfl, ?_⟩
    simp only [List.length_cons]
    omega

theorem pairUp_inj (hinj : ∀ a b c d, join a b = join c d → a = c ∧ b = d) {xs ys zs : List α}
    (hx : pairUp join xs = some zs) (hy : pairUp join ys = some zs) : xs = ys := by
  fun_induction pairUp join xs generalizing ys zs with
  | case1 =>
    cases hx
    have hlen := pairUp_length hy
    exact (List.length_eq_zero_iff.mp (by simpa using hlen)).symm
  | case2 => cases hx
  | case3 a b rest ih =>
    obtain ⟨ws, hw, rfl⟩ := Option.map_eq_some_iff.mp hx
    match ys with
    | [] => cases hy
    | [_] => cases hy
    | c :: d :: rest' =>
      obtain ⟨vs, hv, he⟩ := Option.map_eq_some_iff.mp hy
      obtain ⟨hj, rfl⟩ := List.cons.inj he
      obtain ⟨rfl, rfl⟩ := hinj _ _ _ _ hj
      rw [ih hw hv]

/-- What a layer of two elements or more does with a pass. -/
theorem foldLayers_pass {fuel : Nat} {a b : α} {rest : List α} {r : α}
    (h : foldLayers join fuel (a :: b :: rest) = some r) :
    ∃ next ys, fuel = next + 1 ∧ pairUp join (a :: b :: rest) = some ys ∧
      foldLayers join next ys = some r := by
  cases fuel with
  | zero => cases h
  | succ next =>
    obtain ⟨ys, hy, hr⟩ := Option.bind_eq_some_iff.mp h
    exact ⟨next, ys, rfl, hy, hr⟩

/-- The root of a layer of leaves lies as high above them as the layer is long. -/
theorem foldLayers_level {fuel k : Nat} {xs : List α} {r : α} (h : foldLayers join fuel xs = some r)
    (hx : ∀ x ∈ xs, Level join leaf k x) :
    ∃ d, xs.length = 2 ^ d ∧ Level join leaf (k + d) r := by
  induction fuel using Nat.strongRecOn generalizing k xs with
  | ind fuel ih =>
    match xs with
    | [] => cases fuel <;> cases h
    | [a] =>
      have hr : a = r := by
        cases fuel <;> cases h <;> rfl
      exact ⟨0, rfl, hr ▸ hx a (by simp)⟩
    | a :: b :: rest =>
      obtain ⟨next, ys, rfl, hy, hr⟩ := foldLayers_pass h
      obtain ⟨d, hlen, hlevel⟩ := ih next (by omega) hr (pairUp_level hy hx)
      refine ⟨d + 1, ?_, ?_⟩
      · rw [pairUp_length hy, hlen]
        ring
      · rw [show k + (d + 1) = k + 1 + d by omega]
        exact hlevel

theorem foldLayers_some {fuel d : Nat} {xs : List α} (h : xs.length = 2 ^ d) (hd : d ≤ fuel) :
    ∃ r, foldLayers join fuel xs = some r := by
  induction d generalizing fuel xs with
  | zero =>
    obtain ⟨a, rfl⟩ := List.length_eq_one_iff.mp h
    cases fuel <;> exact ⟨a, rfl⟩
  | succ d ih =>
    have hpos : 1 ≤ 2 ^ d := Nat.one_le_two_pow
    have hdouble : xs.length = 2 * 2 ^ d := by
      rw [h]
      ring
    obtain ⟨ys, hy, hlen⟩ := pairUp_some join hdouble
    match fuel, xs with
    | 0, _ => omega
    | _, [] =>
      simp only [List.length_nil] at hdouble
      omega
    | _, [_] =>
      simp only [List.length_singleton] at hdouble
      omega
    | fuel + 1, a :: b :: rest =>
      obtain ⟨r, hr⟩ := ih hlen (Nat.le_of_succ_le_succ hd)
      exact ⟨r, by rw [foldLayers, hy]; exact hr⟩

/-- Layers of one length are determined by their root. -/
theorem foldLayers_inj (hinj : ∀ a b c d, join a b = join c d → a = c ∧ b = d)
    {fuel fuel' : Nat} {xs ys : List α} {r : α} (hx : foldLayers join fuel xs = some r)
    (hy : foldLayers join fuel' ys = some r) (hlen : xs.length = ys.length) : xs = ys := by
  induction fuel using Nat.strongRecOn generalizing fuel' xs ys with
  | ind fuel ih =>
    match xs, ys with
    | [], _ => cases fuel <;> cases hx
    | [a], [b] =>
      cases fuel <;> cases hx <;> cases fuel' <;> cases hy <;> rfl
    | a :: b :: rest, c :: d :: rest' =>
      obtain ⟨next, us, rfl, hu, hru⟩ := foldLayers_pass hx
      obtain ⟨next', vs, rfl, hv, hrv⟩ := foldLayers_pass hy
      have hsame : us.length = vs.length := by
        have h1 := pairUp_length hu
        have h2 := pairUp_length hv
        omega
      cases ih next (by omega) hru hrv hsame
      exact pairUp_inj hinj hu hv
    | [_], _ :: _ :: _ => cases hlen
    | _ :: _ :: _, [_] => cases hlen

/-- A root binds the leaves below it, also against layers of another length. -/
theorem foldLayers_binds (hinj : ∀ a b c d, join a b = join c d → a = c ∧ b = d)
    (hleaf : ∀ a b, ¬ leaf (join a b)) {fuel fuel' : Nat} {xs ys : List α} {r : α}
    (hx : foldLayers join fuel xs = some r) (hy : foldLayers join fuel' ys = some r)
    (hxs : ∀ x ∈ xs, leaf x) (hys : ∀ y ∈ ys, leaf y) : xs = ys := by
  obtain ⟨d, hd, hr⟩ := foldLayers_level hx (fun x hm => Level.leaf x (hxs x hm))
  obtain ⟨e, he, hr'⟩ := foldLayers_level hy (fun y hm => Level.leaf y (hys y hm))
  have hde := hr.unique hinj hleaf hr'
  apply foldLayers_inj hinj hx hy
  rw [hd, he, Nat.add_left_cancel hde]

end
end ZkStf.Basis.Merkle
