import ZkStf.Basis.Loop
import Mathlib.Data.List.Basic
import Mathlib.Tactic.Common

namespace ZkStf.Basis

section
variable {α β ε : Type} {code : α → List β} {read : List β → Except ε α × List β} {eof : ε}
variable {words : List α} {cut : Nat}

/-- One round of a loop that reads words off a stream until a read fails. -/
def readRound (read : List β → Except ε α × List β) (s : List β × List α) :
    (List α × ε) ⊕ (List β × List α) :=
  match read s.1 with
  | (.ok a, rest) => .inr (rest, s.2 ++ [a])
  | (.error e, _) => .inl (s.2, e)

theorem readRound_ok {s : List β × List α} {a : α} {rest : List β}
    (h : read s.1 = (.ok a, rest)) : readRound read s = .inr (rest, s.2 ++ [a]) := by
  simp [readRound, h]

theorem readRound_error {s : List β × List α} {e : ε} (h : (read s.1).1 = .error e) :
    readRound read s = .inl (s.2, e) := by
  obtain ⟨rest, hread⟩ : ∃ rest, read s.1 = (.error e, rest) := ⟨_, Prod.ext h rfl⟩
  simp [readRound, hread]

/-- A word that the reader takes off the front of a stream, and misses the end of
when it is cut. -/
structure Delimited (code : α → List β) (read : List β → Except ε α × List β) (eof : ε)
    (a : α) : Prop where
  whole : ∀ rest, read (code a ++ rest) = (.ok a, rest)
  cut : ∀ n < (code a).length, (read ((code a).take n)).1 = .error eof

/-- How many of the words lie wholly before the cut. -/
def wholeWords (code : α → List β) : Nat → List α → Nat
  | _, [] => 0
  | cut, a :: words =>
    if (code a).length ≤ cut then wholeWords code (cut - (code a).length) words + 1 else 0

theorem wholeWords_le : wholeWords code cut words ≤ words.length := by
  induction words generalizing cut with
  | nil => simp [wholeWords]
  | cons a words ih =>
    unfold wholeWords
    split
    · simpa using ih
    · simp

theorem wholeWords_within (words : List α) (cut : Nat) :
    ((words.take (wholeWords code cut words)).flatMap code).length ≤ cut := by
  induction words generalizing cut with
  | nil => simp
  | cons a words ih =>
    unfold wholeWords
    split
    · have hrest := ih (cut - (code a).length)
      simp only [List.take_succ_cons, List.flatMap_cons, List.length_append]
      omega
    · simp

theorem le_wholeWords {j : Nat} (hj : j ≤ words.length)
    (h : ((words.take j).flatMap code).length ≤ cut) : j ≤ wholeWords code cut words := by
  induction words generalizing cut j with
  | nil =>
    simp only [List.length_nil, Nat.le_zero] at hj
    simp [hj]
  | cons a words ih =>
    cases j with
    | zero => simp
    | succ j =>
      simp only [List.take_succ_cons, List.flatMap_cons, List.length_append] at h
      have hrest : j ≤ wholeWords code (cut - (code a).length) words :=
        ih (Nat.le_of_succ_le_succ hj) (by omega)
      unfold wholeWords
      rw [if_pos (by omega)]
      omega

/-- On a cut stream the loop ends with the words that are whole. -/
theorem readRound_ends (hend : (read []).1 = .error eof)
    (hwords : ∀ a ∈ words, Delimited code read eof a) (cut : Nat) (got : List α) :
    Ends (readRound read) ((words.flatMap code).take cut, got)
      (got ++ words.take (wholeWords code cut words), eof) := by
  induction words generalizing cut got with
  | nil =>
    simp only [List.flatMap_nil, List.take_nil, List.append_nil]
    exact .stop _ _ (readRound_error hend)
  | cons a words ih =>
    have ha := hwords a (by simp)
    rw [List.flatMap_cons, List.take_append]
    unfold wholeWords
    split
    case isTrue hwhole =>
      rw [List.take_of_length_le hwhole]
      have hrest := ih (fun b hb => hwords b (by simp [hb])) (cut - (code a).length) (got ++ [a])
      rw [List.append_assoc] at hrest
      exact .again _ _ _ (readRound_ok (ha.whole _)) hrest
    case isFalse hshort =>
      rw [Nat.sub_eq_zero_of_le (by omega)]
      simp only [List.take_zero, List.append_nil]
      exact .stop _ _ (readRound_error (ha.cut cut (by omega)))

end

end ZkStf.Basis
