import Mathlib.Data.Finset.Card
import Mathlib.Data.Finset.Range
import Mathlib.Logic.Relation
import Mathlib.Tactic.Common

namespace ZkStf.Basis.Ballots

/-- Two sets of at least `q` members of `u` share one outside `bad`, as soon as
`2 * q` exceeds the size of `u` by more than that of `bad`. -/
theorem meet_outside [DecidableEq ι] {u bad a b : Finset ι} {q : Nat}
    (hau : a ⊆ u) (hbu : b ⊆ u) (ha : q ≤ a.card) (hb : q ≤ b.card)
    (hq : u.card + bad.card < 2 * q) : ∃ i ∈ a, i ∈ b ∧ i ∉ bad := by
  have hunion : (a ∪ b).card ≤ u.card := Finset.card_le_card (Finset.union_subset hau hbu)
  have hsum := Finset.card_union_add_card_inter a b
  have hmore : bad.card < (a ∩ b).card := by omega
  obtain ⟨i, hi, hn⟩ := Finset.exists_mem_notMem_of_card_lt_card hmore
  exact ⟨i, (Finset.mem_inter.mp hi).1, (Finset.mem_inter.mp hi).2, hn⟩

/-- The rounds of voting a block goes through within one view. -/
inductive Phase
  | prepare
  | preCommit
  | commit
deriving DecidableEq, Repr

structure Ballot (ι β : Type) where
  voter : ι
  phase : Phase
  view : Nat
  block : β

section
variable {ι β : Type} (honest : ι → Prop) (quorum : Finset ι → Prop)

/-- Some quorum all of whose honest members cast the ballot. -/
def Certified (cast : Ballot ι β → Prop) (p : Phase) (v : Nat) (b : β) : Prop :=
  ∃ q, quorum q ∧ ∀ i ∈ q, honest i → cast ⟨i, p, v, b⟩

/-- Any two quorums have an honest member in common. -/
def Intersecting : Prop :=
  ∀ a b, quorum a → quorum b → ∃ i ∈ a, i ∈ b ∧ honest i

/-- One ballot per phase and view, and none in a later phase without a
certificate of the phase before. -/
structure Orderly (cast : Ballot ι β → Prop) : Prop where
  single : ∀ i p v b b', honest i → cast ⟨i, p, v, b⟩ → cast ⟨i, p, v, b'⟩ → b = b'
  preCommit : ∀ i v b, honest i → cast ⟨i, .preCommit, v, b⟩ →
    Certified honest quorum cast .prepare v b
  commit : ∀ i v b, honest i → cast ⟨i, .commit, v, b⟩ →
    Certified honest quorum cast .preCommit v b

/-- What three rounds of voting owe to the locks. The last clause speaks of the
log as it stood when a prepare ballot was cast: whoever had committed in an
older view then saw a certified ancestor from that view or a later one. Nothing
relates the view of that ancestor to the view of the new ballot. -/
structure Disciplined (line : β → β → Prop) (log : List (Ballot ι β)) : Prop
    extends Orderly honest quorum (· ∈ log) where
  bound : ∀ before after i v' b', log = before ++ ⟨i, .prepare, v', b'⟩ :: after → honest i →
    ∀ v b, ⟨i, .commit, v, b⟩ ∈ log → v < v' →
      ∃ w p, v ≤ w ∧ Certified honest quorum (· ∈ before) .prepare w p ∧ line b' p

variable {honest quorum} {line : β → β → Prop} {cast : Ballot ι β → Prop}

theorem Certified.mono {cast' : Ballot ι β → Prop} {p : Phase} {v : Nat} {b : β}
    (h : Certified honest quorum cast p v b)
    (hs : ∀ i, honest i → cast ⟨i, p, v, b⟩ → cast' ⟨i, p, v, b⟩) :
    Certified honest quorum cast' p v b := by
  obtain ⟨q, hq, hm⟩ := h
  exact ⟨q, hq, fun i hi hh => hs i hh (hm i hi hh)⟩

/-- Only what honest voters cast matters. -/
theorem Orderly.congr {cast' : Ballot ι β → Prop} (ho : Orderly honest quorum cast)
    (h : ∀ b : Ballot ι β, honest b.voter → (cast b ↔ cast' b)) : Orderly honest quorum cast' where
  single i p v b b' hi hb hb' := ho.single i p v b b' hi ((h _ hi).mpr hb) ((h _ hi).mpr hb')
  preCommit i v b hi hb := (ho.preCommit i v b hi ((h _ hi).mpr hb)).mono (fun _ hj => (h _ hj).mp)
  commit i v b hi hb := (ho.commit i v b hi ((h _ hi).mpr hb)).mono (fun _ hj => (h _ hj).mp)

theorem Certified.voter {p : Phase} {v : Nat} {b : β}
    (hi : Intersecting honest quorum) (h : Certified honest quorum cast p v b) :
    ∃ i, honest i ∧ cast ⟨i, p, v, b⟩ := by
  obtain ⟨q, hq, hm⟩ := h
  obtain ⟨i, hiq, _, hh⟩ := hi q q hq hq
  exact ⟨i, hh, hm i hiq hh⟩

/-- A phase of a view certifies one block at most. -/
theorem Orderly.unique (ho : Orderly honest quorum cast) (hi : Intersecting honest quorum)
    {p : Phase} {v : Nat} {b b' : β} (h : Certified honest quorum cast p v b)
    (h' : Certified honest quorum cast p v b') : b = b' := by
  obtain ⟨q, hq, hm⟩ := h
  obtain ⟨q', hq', hm'⟩ := h'
  obtain ⟨i, hiq, hiq', hh⟩ := hi q q' hq hq'
  exact ho.single i p v b b' hh (hm i hiq hh) (hm' i hiq' hh)

/-- Whatever is certified in a view, in any phase, was prepared in that view. -/
theorem Orderly.prepared (ho : Orderly honest quorum cast) (hi : Intersecting honest quorum)
    {p : Phase} {v : Nat} {b : β} (h : Certified honest quorum cast p v b) :
    Certified honest quorum cast .prepare v b := by
  have hpre : ∀ {v b}, Certified honest quorum cast .preCommit v b →
      Certified honest quorum cast .prepare v b := by
    intro v b h
    obtain ⟨i, hh, hm⟩ := h.voter hi
    exact ho.preCommit i v b hh hm
  cases p with
  | prepare => exact h
  | preCommit => exact hpre h
  | commit =>
    obtain ⟨i, hh, hm⟩ := h.voter hi
    exact hpre (ho.commit i v b hh hm)

variable {log : List (Ballot ι β)}

/-- Everything prepared from the view of a committed block on extends it. The
induction is on how much of the log the prepare certificate needs, since a
certificate quoted by a proposal may come from any view, even a later one. -/
theorem Disciplined.prepared_extends (hd : Disciplined honest quorum line log)
    (hi : Intersecting honest quorum) (hrefl : ∀ b, line b b)
    (htrans : ∀ a b c, line a b → line b c → line a c)
    {v : Nat} {b : β} (hc : Certified honest quorum (· ∈ log) .commit v b) :
    ∀ (k : Nat) (before after : List (Ballot ι β)), before.length = k → log = before ++ after →
      ∀ v' b', Certified honest quorum (· ∈ before) .prepare v' b' → v ≤ v' → line b' b := by
  intro k
  induction k using Nat.strongRecOn with
  | ind k ih =>
    intro before after hk hlog v' b' hp hv
    rcases Nat.eq_or_lt_of_le hv with he | hlt
    · subst v'
      have hb := hd.unique hi (hd.prepared hi hc)
        (hp.mono (fun _ _ hx => hlog ▸ List.mem_append_left _ hx))
      exact hb ▸ hrefl b
    · obtain ⟨q, hq, hm⟩ := hc
      obtain ⟨q', hq', hm'⟩ := hp
      obtain ⟨i, hiq, hiq', hh⟩ := hi q q' hq hq'
      obtain ⟨older, newer, hsplit⟩ := List.append_of_mem (hm' i hiq' hh)
      have hcast : log = older ++ ⟨i, .prepare, v', b'⟩ :: (newer ++ after) := by
        rw [hlog, hsplit]
        simp
      obtain ⟨w, p, hw, hcert, hline⟩ := hd.bound _ _ _ _ _ hcast hh v b (hm i hiq hh) hlt
      have hshort : older.length < k := by
        rw [← hk, hsplit]
        simp
      exact htrans _ _ _ hline (ih older.length hshort older _ rfl hcast w p hcert hw)

/-- Agreement: of two committed blocks one extends the other. -/
theorem Disciplined.agreement (hd : Disciplined honest quorum line log)
    (hi : Intersecting honest quorum) (hrefl : ∀ b, line b b)
    (htrans : ∀ a b c, line a b → line b c → line a c)
    {v v' : Nat} {b b' : β} (h : Certified honest quorum (· ∈ log) .commit v b)
    (h' : Certified honest quorum (· ∈ log) .commit v' b') : line b' b ∨ line b b' := by
  have hext := fun {v b} (hc : Certified honest quorum (· ∈ log) .commit v b) =>
    hd.prepared_extends hi hrefl htrans hc log.length log [] rfl (by simp)
  rcases Nat.le_total v v' with hv | hv
  · exact Or.inl (hext h v' b' (hd.prepared hi h') hv)
  · exact Or.inr (hext h' v b (hd.prepared hi h) hv)

end
end ZkStf.Basis.Ballots
