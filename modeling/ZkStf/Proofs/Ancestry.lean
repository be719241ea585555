import ZkStf.Basis.Loop
import ZkStf.Proofs.Kickoff

namespace ZkStf
open ZkStf.Basis
variable {C : Crypto}

/-- A run of `extends_from` returns an answer: at once for the node itself,
otherwise from the loop. -/
def ExtendsReturns (node : Node C) (target : C.Hash) (tree : EntryMap C.Hash (Node C))
    (answer : Bool) : Prop :=
  if nodeHash node = target then answer = true
  else Ends (extendsRound target tree) (node.parent, 0) answer

/-- The target is reached by following parent links of tree entries, with one
lookup for each. No link leads on from genesis. -/
inductive Reaches (tree : EntryMap C.Hash (Node C)) (target : C.Hash) : Nat → C.Hash → Prop
  | here : Reaches tree target 0 target
  | link (lookups : Nat) (cur : C.Hash) (parentNode : Node C) (above : cur ≠ genesisHash C)
      (found : tree.get? cur = some parentNode)
      (rest : Reaches tree target lookups parentNode.parent) : Reaches tree target (lookups + 1) cur

section
variable {tree : EntryMap C.Hash (Node C)} {target cur : C.Hash}

/-- The loop ends on every tree: each round that goes on counts a step. -/
theorem extendsLoop_ends {fuel steps : Nat} (hsteps : steps + fuel = 100000) :
    Ends (extendsRound target tree) (cur, steps) (extendsLoop target tree fuel cur) := by
  fun_induction extendsLoop target tree fuel cur generalizing steps with
  | case1 => exact .stop _ _ (by simp [extendsRound])
  | case2 _ hne => exact .stop _ _ (by simp [extendsRound, hne])
  | case3 _ cur hne hroot hget => exact .stop _ _ (by simp [extendsRound, hne, hroot, hget])
  | case4 cur hne hroot node hget =>
    -- one more lookup than the bound allows
    apply Ends.stop
    simp only [extendsRound, hne, hroot, hget, ↓reduceIte]
    rw [if_pos (by omega)]
  | case5 cur hne hroot node fuel hget ih =>
    apply Ends.again _ (node.parent, steps + 1)
    · simp only [extendsRound, hne, hroot, hget, ↓reduceIte]
      rw [if_neg (by omega)]
    · exact ih (by omega)

theorem extendsLoop_reaches {fuel : Nat} (h : extendsLoop target tree fuel cur = true) :
    ∃ lookups ≤ fuel, Reaches tree target lookups cur := by
  fun_induction extendsLoop target tree fuel cur with
  | case1 => exact ⟨0, Nat.zero_le _, .here⟩
  | case2 => cases h
  | case3 => cases h
  | case4 => cases h
  | case5 cur hne hroot node fuel hget ih =>
    obtain ⟨lookups, hle, hrest⟩ := ih h
    exact ⟨lookups + 1, Nat.succ_le_succ hle, .link lookups cur node hroot hget hrest⟩

theorem Reaches.extendsLoop {lookups fuel : Nat} (h : Reaches tree target lookups cur)
    (hle : lookups ≤ fuel) : extendsLoop target tree fuel cur = true := by
  induction h generalizing fuel with
  | here =>
    unfold ZkStf.extendsLoop
    simp
  | link lookups cur node above found rest ih =>
    cases fuel with
    | zero => omega
    | succ fuel =>
      unfold ZkStf.extendsLoop
      simp [above, found, ih (Nat.le_of_succ_le_succ hle)]

end

/-- On every tree the walk returns, and it says yes exactly to the node itself and
to what the bound lets it reach. -/
theorem extends_from_returns (node : Node C) (target : C.Hash) (tree : EntryMap C.Hash (Node C)) :
    (∀ answer, ExtendsReturns node target tree answer ↔
      answer = extendsFrom node target tree) ∧
    (extendsFrom node target tree = true →
      nodeHash node = target ∨ ∃ lookups, Reaches tree target lookups node.parent) ∧
    ((nodeHash node = target ∨ ∃ lookups ≤ 100000, Reaches tree target lookups node.parent) →
      extendsFrom node target tree = true) := by
  unfold ExtendsReturns extendsFrom
  by_cases hself : nodeHash node = target
  · simp [hself]
  · simp only [hself, ↓reduceIte, false_or]
    refine ⟨?_, ?_, ?_⟩
    · intro answer
      exact (extendsLoop_ends (Nat.zero_add _)).iff
    · intro h
      obtain ⟨lookups, _, hreach⟩ := extendsLoop_reaches h
      exact ⟨lookups, hreach⟩
    · rintro ⟨lookups, hle, hreach⟩
      exact hreach.extendsLoop hle

namespace Quartet

/-- A tree with an entry that is its own parent. -/
def ring : EntryMap crypto.Hash (Node crypto) := EntryMap.empty.insert (.inl 7) ⟨.inl 7, .inr [], 0⟩

theorem ring_closed {lookups : Nat} {cur : crypto.Hash} (hcur : cur = .inl 7) :
    ¬ Reaches ring (genesisHash crypto) lookups cur := by
  intro h
  induction h with
  | here => cases hcur
  | link lookups cur node above found rest ih =>
    subst cur
    cases found
    exact ih rfl

/-- The first block and the one on top of it. -/
def twoBlocks : EntryMap crypto.Hash (Node crypto) := EntryMap.empty.insert (.inl 1) first

end Quartet

/-- The walk comes to an end on a cycle, and to genesis from the second block. -/
theorem quartet_walks :
    ExtendsReturns (⟨.inl 7, .inr [], 1⟩ : Node Quartet.crypto) (genesisHash Quartet.crypto)
        Quartet.ring false ∧
      ExtendsReturns Quartet.second (genesisHash Quartet.crypto) Quartet.twoBlocks true := by
  constructor
  · obtain ⟨hreturns, hsound, _⟩ := extends_from_returns
      (⟨.inl 7, .inr [], 1⟩ : Node Quartet.crypto) (genesisHash Quartet.crypto) Quartet.ring
    apply (hreturns false).mpr
    symm
    apply Bool.eq_false_iff.mpr
    intro hyes
    rcases hsound hyes with hself | ⟨lookups, hreach⟩
    · exact tabled_nodes_fresh _ hself
    · exact Quartet.ring_closed rfl hreach
  · obtain ⟨hreturns, _, hcomplete⟩ := extends_from_returns Quartet.second
      (genesisHash Quartet.crypto) Quartet.twoBlocks
    apply (hreturns true).mpr
    symm
    apply hcomplete
    refine Or.inr ⟨1, by omega, ?_⟩
    apply Reaches.link 0 _ Quartet.first
    · intro h
      cases h
    · rfl
    · exact .here

end ZkStf
