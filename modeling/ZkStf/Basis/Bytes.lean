import Mathlib.Data.List.Basic
import Mathlib.Tactic.Common
import Mathlib.Tactic.Ring

namespace ZkStf.Basis

/-- The `k` low bytes of a number, least significant first. -/
def leBytes : Nat → Nat → List UInt8
  | 0, _ => []
  | k + 1, x => UInt8.ofNat (x % 256) :: leBytes k (x / 256)

@[simp] theorem leBytes_length (k x : Nat) : (leBytes k x).length = k := by
  induction k generalizing x with
  | zero => rfl
  | succ k ih => simp [leBytes, ih]

/-- The number that little-endian bytes stand for. -/
def leNat : List UInt8 → Nat
  | [] => 0
  | b :: l => b.toNat + 256 * leNat l

theorem leNat_leBytes {k x : Nat} (hx : x < 256 ^ k) : leNat (leBytes k x) = x := by
  induction k generalizing x with
  | zero =>
    simp only [pow_zero, Nat.lt_one_iff] at hx
    simp [leBytes, leNat, hx]
  | succ k ih =>
    have hp : 256 ^ (k + 1) = 256 ^ k * 256 := by ring
    have hdiv : leNat (leBytes k (x / 256)) = x / 256 := ih (Nat.div_lt_of_lt_mul (by omega))
    simp only [leBytes, leNat, hdiv, UInt8.toNat_ofNat']
    omega

theorem leNat_lt (l : List UInt8) : leNat l < 256 ^ l.length := by
  induction l with
  | nil => simp [leNat]
  | cons b l ih =>
    have hb := b.toNat_lt
    have hp : 256 ^ (l.length + 1) = 256 ^ l.length * 256 := by ring
    simp only [leNat, List.length_cons]
    omega

theorem leBytes_leNat (l : List UInt8) : leBytes l.length (leNat l) = l := by
  induction l with
  | nil => rfl
  | cons b l ih =>
    have hb := b.toNat_lt
    have hmod : (b.toNat + 256 * leNat l) % 256 = b.toNat := by omega
    have hdiv : (b.toNat + 256 * leNat l) / 256 = leNat l := by omega
    simp [leBytes, leNat, hmod, hdiv, ih]

theorem leBytes_inj {k x y : Nat} (hx : x < 256 ^ k) (hy : y < 256 ^ k)
    (h : leBytes k x = leBytes k y) : x = y := by
  rw [← leNat_leBytes hx, h, leNat_leBytes hy]

def le32 (x : UInt32) : List UInt8 := leBytes 4 x.toNat

def le64 (x : UInt64) : List UInt8 := leBytes 8 x.toNat

theorem le32_inj {x y : UInt32} (h : le32 x = le32 y) : x = y :=
  UInt32.toNat_inj.mp (leBytes_inj x.toNat_lt y.toNat_lt h)

theorem le64_inj {x y : UInt64} (h : le64 x = le64 y) : x = y :=
  UInt64.toNat_inj.mp (leBytes_inj x.toNat_lt y.toNat_lt h)

/-- A `u32` most significant byte first, and the number that such bytes stand for. -/
def be32 (x : UInt32) : List UInt8 := (le32 x).reverse

def beNat (l : List UInt8) : Nat := leNat l.reverse

@[simp] theorem be32_length (x : UInt32) : (be32 x).length = 4 := by
  simp [be32, le32]

@[simp] theorem beNat_be32 (x : UInt32) : beNat (be32 x) = x.toNat := by
  rw [beNat, be32, List.reverse_reverse]
  exact leNat_leBytes x.toNat_lt

/-- No code word continues another, so a concatenation is read back uniquely. -/
def Splits (code : α → List β) : Prop :=
  ∀ a b x y, code a ++ x = code b ++ y → a = b ∧ x = y

/-- Words of one width are told apart by their length alone. -/
theorem Splits.of_width {code : α → List β} {w : Nat} (hw : ∀ a, (code a).length = w)
    (hinj : Function.Injective code) : Splits code := by
  intro a b x y h
  obtain ⟨hcode, hrest⟩ := List.append_inj h ((hw a).trans (hw b).symm)
  exact ⟨hinj hcode, hrest⟩

theorem le32_splits : Splits le32 :=
  .of_width (fun x => leBytes_length 4 x.toNat) (fun _ _ => le32_inj)

theorem le64_splits : Splits le64 :=
  .of_width (fun x => leBytes_length 8 x.toNat) (fun _ _ => le64_inj)

/-- A list of words needs no separator either. -/
theorem Splits.flatMap_injective {code : α → List β} (h : Splits code)
    (hne : ∀ a, code a ≠ []) : Function.Injective (fun l : List α => l.flatMap code) := by
  intro l
  induction l with
  | nil =>
    intro m he
    cases m with
    | nil => rfl
    | cons b m => simp [hne b] at he
  | cons a l ih =>
    intro m he
    cases m with
    | nil => simp [hne a] at he
    | cons b m =>
      simp only [List.flatMap_cons] at he
      obtain ⟨rfl, hrest⟩ := h a b _ _ he
      rw [ih hrest]

/-- A code for counters and for byte strings alike: a counter in unary, a string
with a mark before each byte. -/
def codeWord : Nat ⊕ List UInt8 → List UInt8
  | .inl k => List.replicate k 1 ++ [0]
  | .inr l => 2 :: (l.flatMap (fun b => [1, b]) ++ [0])

theorem unary_splits {k m : Nat} {x y : List UInt8}
    (h : List.replicate k 1 ++ 0 :: x = List.replicate m 1 ++ 0 :: y) : k = m ∧ x = y := by
  induction k generalizing m with
  | zero => cases m <;> simp_all [List.replicate_succ]
  | succ k ih =>
    cases m with
    | zero => simp [List.replicate_succ] at h
    | succ m =>
      simp only [List.replicate_succ, List.cons_append, List.cons.injEq, true_and] at h
      obtain ⟨rfl, hx⟩ := ih h
      exact ⟨rfl, hx⟩

theorem marked_splits {l m x y : List UInt8}
    (h : l.flatMap (fun b => [1, b]) ++ 0 :: x = m.flatMap (fun b => [1, b]) ++ 0 :: y) :
    l = m ∧ x = y := by
  induction l generalizing m with
  | nil => cases m <;> simp_all
  | cons b l ih =>
    cases m with
    | nil => simp at h
    | cons c m =>
      simp only [List.flatMap_cons, List.cons_append, List.nil_append, List.cons.injEq,
        true_and] at h
      obtain ⟨rfl, hx⟩ := ih h.2
      exact ⟨by rw [h.1], hx⟩

theorem codeWord_splits : Splits codeWord := by
  rintro (k | l) (m | m) x y h
  · simp only [codeWord, List.append_assoc, List.cons_append, List.nil_append] at h
    obtain ⟨rfl, hx⟩ := unary_splits h
    exact ⟨rfl, hx⟩
  · cases k <;> simp [codeWord, List.replicate_succ] at h
  · cases m <;> simp [codeWord, List.replicate_succ] at h
  · simp only [codeWord, List.cons_append, List.append_assoc, List.nil_append, List.cons.injEq,
      true_and] at h
    obtain ⟨rfl, hx⟩ := marked_splits h
    exact ⟨rfl, hx⟩

theorem Splits.padded {code : α → List β} (h : Splits code) (pad : List β) :
    Splits (fun a => pad ++ code a) := by
  intro a b x y he
  simp only [List.append_assoc] at he
  exact h a b x y (List.append_cancel_left he)

end ZkStf.Basis
