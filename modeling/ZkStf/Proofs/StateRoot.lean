import ZkStf.Proofs.Playback

namespace ZkStf
open ZkStf.Basis
variable {C : Crypto}

/-- A hash without collisions, whose digests are read back from a concatenation
and take at least 32 bytes. -/
structure Ideal (C : Crypto) : Prop where
  injective : Function.Injective C.sha256
  splits : Splits C.bytes
  wide : ∀ h, 32 ≤ (C.bytes h).length

/-- The ledger after some blocks, from the genesis of a manifest. -/
def ledgerAfter (m : Manifest) (blocks : List (List Tx)) : State :=
  blocks.foldl (fun s txs => (applyBlock s txs).1) (genesisState m)

theorem leafCount_eq (s : State) : leafCount s = 2 ^ Nat.clog 2 s.balances.size := by
  unfold leafCount nextPowerOfTwo
  exact max_eq_left Nat.one_le_two_pow

/-- Up to 2^31 keys the number of leaves fits in a `u32`. -/
theorem leafCount_lt {s : State} (h : s.balances.size ≤ 2 ^ 31) : leafCount s < 2 ^ 32 := by
  rw [leafCount_eq]
  have hclog : Nat.clog 2 s.balances.size ≤ 31 := Nat.clog_le_of_le_pow h
  exact Nat.pow_lt_pow_right (by omega) (by omega)

/-- The `u32` counter of the leaf loop ends at once when it should count to 2^32. -/
theorem leafCount_mod (s : State) :
    leafCount s % 2 ^ 32 = if leafCount s < 2 ^ 32 then leafCount s else 0 := by
  split
  · exact Nat.mod_eq_of_lt (by assumption)
  · rename_i hbig
    rw [leafCount_eq] at hbig ⊢
    have hle : 32 ≤ Nat.clog 2 s.balances.size := by
      by_contra hlt
      exact hbig (Nat.pow_lt_pow_right (by omega) (by omega))
    exact Nat.mod_eq_zero_of_dvd (Nat.pow_dvd_pow 2 hle)

theorem leafLayer_length (s : State) : (leafLayer C s).length = leafCount s % 2 ^ 32 := by
  simp [leafLayer]

theorem leafBytes_length (s : State) (i : Nat) : (leafBytes s i).length = 12 := by
  simp [leafBytes, le32, le64]

/-- A root comes out exactly when the leaves can be counted in `u32`. -/
theorem computeStateRoot_isSome (s : State) :
    (∃ root, computeStateRoot C s = some root) ↔ leafCount s < 2 ^ 32 := by
  have hlen := leafLayer_length (C := C) s
  rw [leafCount_mod] at hlen
  constructor
  · rintro ⟨root, hroot⟩
    by_contra hbig
    rw [if_neg hbig] at hlen
    unfold computeStateRoot at hroot
    rw [List.length_eq_zero_iff.mp hlen] at hroot
    cases hroot
  · intro hlt
    rw [if_pos hlt, leafCount_eq] at hlen
    exact Merkle.foldLayers_some hlen (by rw [hlen]; exact Nat.lt_two_pow_self.le)

namespace Ideal

theorem hashPair_inj (hC : Ideal C) (a b c d : C.Hash) (h : hashPair C a b = hashPair C c d) :
    a = c ∧ b = d := by
  obtain ⟨hac, hbd⟩ := hC.splits a c _ _ (hC.injective h)
  have hend : C.bytes b ++ [] = C.bytes d ++ [] := by
    simpa using hbd
  exact ⟨hac, (hC.splits b d _ _ hend).1⟩

/-- The digest of a leaf, which has 12 bytes where an inner node has 64. -/
def Leaf (C : Crypto) (h : C.Hash) : Prop := ∃ l : List UInt8, l.length = 12 ∧ C.sha256 l = h

theorem not_leaf (hC : Ideal C) (a b : C.Hash) : ¬ Leaf C (hashPair C a b) := by
  rintro ⟨l, hlen, h⟩
  have hl := congrArg List.length (hC.injective h)
  have ha := hC.wide a
  have hb := hC.wide b
  rw [List.length_append] at hl
  omega

theorem leafLayer_leaves (s : State) : ∀ h ∈ leafLayer C s, Leaf C h := by
  intro h hm
  obtain ⟨i, _, rfl⟩ := List.mem_map.mp hm
  exact ⟨leafBytes s i, leafBytes_length s i, rfl⟩

theorem leafBytes_balance {s t : State} {i : Nat} (h : leafBytes s i = leafBytes t i) :
    s.getBalance (UInt32.ofNat i) = t.getBalance (UInt32.ofNat i) :=
  le64_inj (List.append_cancel_left h)

/-- Two roots agree exactly when the two leaf layers do. -/
theorem roots_agree (hC : Ideal C) (s t : State) :
    (∃ root, computeStateRoot C s = some root ∧ computeStateRoot C t = some root) ↔
      leafCount s = leafCount t ∧ leafCount s < 2 ^ 32 ∧
        ∀ a : UInt32, a.toNat < leafCount s → s.getBalance a = t.getBalance a := by
  constructor
  · rintro ⟨root, hs, ht⟩
    have hsmall := (computeStateRoot_isSome s).mp ⟨root, hs⟩
    have hsmall' := (computeStateRoot_isSome t).mp ⟨root, ht⟩
    have hlayer : leafLayer C s = leafLayer C t :=
      Merkle.foldLayers_binds hC.hashPair_inj hC.not_leaf hs ht (leafLayer_leaves s)
        (leafLayer_leaves t)
    have hcount : leafCount s = leafCount t := by
      have hlen := congrArg List.length hlayer
      rw [leafLayer_length, leafLayer_length] at hlen
      rwa [Nat.mod_eq_of_lt hsmall, Nat.mod_eq_of_lt hsmall'] at hlen
    refine ⟨hcount, hsmall, ?_⟩
    intro a ha
    unfold leafLayer at hlayer
    rw [← hcount, Nat.mod_eq_of_lt hsmall] at hlayer
    have hleaf := List.map_inj_left.mp hlayer a.toNat (List.mem_range.mpr ha)
    simpa using leafBytes_balance (hC.injective hleaf)
  · rintro ⟨hcount, hsmall, hagree⟩
    obtain ⟨root, hroot⟩ := (computeStateRoot_isSome (C := C) s).mpr hsmall
    have hlayer : leafLayer C t = leafLayer C s := by
      unfold leafLayer
      rw [← hcount, Nat.mod_eq_of_lt hsmall]
      apply List.map_congr_left
      intro i hi
      have hi := List.mem_range.mp hi
      have hto : (UInt32.ofNat i).toNat = i := by
        simpa using Nat.mod_eq_of_lt (hi.trans hsmall)
      unfold leafBytes
      rw [hagree (UInt32.ofNat i) (by rwa [hto])]
    refine ⟨root, hroot, ?_⟩
    unfold computeStateRoot at hroot ⊢
    rw [hlayer]
    exact hroot

end Ideal

/-- What a state root commits to: the number of leaves and the balance at each. -/
theorem root_commits_leaves (hC : Ideal C) (s t : State) (hs : s.balances.size ≤ 2 ^ 31)
    (ht : t.balances.size ≤ 2 ^ 31) :
    ∃ r r', computeStateRoot C s = some r ∧ computeStateRoot C t = some r' ∧
      (r = r' ↔ leafCount s = leafCount t ∧
        ∀ a : UInt32, a.toNat < leafCount s → s.getBalance a = t.getBalance a) := by
  have hsmall := leafCount_lt hs
  obtain ⟨r, hr⟩ := (computeStateRoot_isSome (C := C) s).mpr hsmall
  obtain ⟨r', hr'⟩ := (computeStateRoot_isSome (C := C) t).mpr (leafCount_lt ht)
  refine ⟨r, r', hr, hr', ?_⟩
  have hagree := hC.roots_agree s t
  constructor
  · rintro rfl
    obtain ⟨hcount, _, hleaves⟩ := hagree.mp ⟨r, hr, hr'⟩
    exact ⟨hcount, hleaves⟩
  · rintro ⟨hcount, hleaves⟩
    obtain ⟨root, hroot, hroot'⟩ := hagree.mpr ⟨hcount, hsmall, hleaves⟩
    rw [hr] at hroot
    rw [hr'] at hroot'
    cases hroot
    cases hroot'
    rfl

/-- When the state root binds the ledger. The leaves stand for the accounts
below the number of keys, rounded up to a power of two: two ledgers that differ
only on accounts from there on have one root. -/
theorem root_binds_ledger (hC : Ideal C) (m : Manifest) (bs cs : List (List Tx)) :
    ((∃ root, computeStateRoot C (ledgerAfter m bs) = some root ∧
        computeStateRoot C (ledgerAfter m cs) = some root) →
      ∀ a, (ledgerAfter m bs).getBalance a = (ledgerAfter m cs).getBalance a) ↔
    (leafCount (ledgerAfter m bs) ≠ leafCount (ledgerAfter m cs) ∨
      2 ^ 32 ≤ leafCount (ledgerAfter m bs) ∨
      (∃ a : UInt32, a.toNat < leafCount (ledgerAfter m bs) ∧
        (ledgerAfter m bs).getBalance a ≠ (ledgerAfter m cs).getBalance a) ∨
      ∀ a : UInt32, leafCount (ledgerAfter m bs) ≤ a.toNat →
        (ledgerAfter m bs).getBalance a = (ledgerAfter m cs).getBalance a) := by
  generalize ledgerAfter m bs = s
  generalize ledgerAfter m cs = t
  rw [hC.roots_agree]
  constructor
  · intro hbinds
    by_cases hsame : leafCount s = leafCount t ∧ leafCount s < 2 ^ 32 ∧
        ∀ a : UInt32, a.toNat < leafCount s → s.getBalance a = t.getBalance a
    · exact Or.inr (Or.inr (Or.inr (fun a _ => hbinds hsame a)))
    · simp only [not_and_or, not_forall, Nat.not_lt] at hsame
      rcases hsame with hcount | hbig | ⟨a, ha, hne⟩
      · exact Or.inl hcount
      · exact Or.inr (Or.inl hbig)
      · exact Or.inr (Or.inr (Or.inl ⟨a, ha, hne⟩))
  · rintro (hcount | hbig | ⟨a, ha, hne⟩ | habove) ⟨hc, hsmall, hbelow⟩ x
    · exact absurd hc hcount
    · omega
    · exact absurd (hbelow a ha) hne
    · rcases Nat.lt_or_ge x.toNat (leafCount s) with hx | hx
      · exact hbelow x hx
      · exact habove x hx

/-! A hash of wide digests, and ledgers of a few accounts. -/
namespace Wide

abbrev crypto : Crypto := tabled 32 [] (fun _ => none)

theorem ideal : Ideal crypto where
  injective := tabled_injective
  splits := tabled_splits
  wide h := by
    change 32 ≤ (List.replicate 32 3 ++ codeWord h).length
    simp

def genesis (numAccounts : UInt32) : Manifest := ⟨numAccounts, 10, 0⟩

end Wide

/-- Three accounts have four leaves. A fourth account beyond them does not show in the
root, another balance of account 2 does. -/
theorem four_leaves_committed :
    (∃ r r', computeStateRoot Wide.crypto (genesisState (Wide.genesis 3)) = some r ∧
      computeStateRoot Wide.crypto ((genesisState (Wide.genesis 3)).setBalance 9 1) = some r' ∧
      r = r') ∧
    ∃ r r', computeStateRoot Wide.crypto (genesisState (Wide.genesis 3)) = some r ∧
      computeStateRoot Wide.crypto ((genesisState (Wide.genesis 3)).setBalance 2 1) = some r' ∧
      r ≠ r' := by
  have hcount : leafCount (genesisState (Wide.genesis 3)) = 4 := by decide +kernel
  constructor
  · obtain ⟨r, r', hr, hr', hagree⟩ := root_commits_leaves Wide.ideal
      (genesisState (Wide.genesis 3)) ((genesisState (Wide.genesis 3)).setBalance 9 1)
      (by decide) (by decide)
    refine ⟨r, r', hr, hr', hagree.mpr ⟨by decide +kernel, ?_⟩⟩
    intro a ha
    have hbelow : ∀ k < 4, (genesisState (Wide.genesis 3)).getBalance (UInt32.ofNat k) =
        ((genesisState (Wide.genesis 3)).setBalance 9 1).getBalance (UInt32.ofNat k) := by
      decide
    simpa using hbelow a.toNat (hcount ▸ ha)
  · obtain ⟨r, r', hr, hr', hagree⟩ := root_commits_leaves Wide.ideal
      (genesisState (Wide.genesis 3)) ((genesisState (Wide.genesis 3)).setBalance 2 1)
      (by decide) (by decide)
    refine ⟨r, r', hr, hr', ?_⟩
    intro heq
    have htwo := (hagree.mp heq).2 2 (by rw [hcount]; decide)
    exact absurd htwo (by decide)

theorem getBalance_absent {s : State} {a : UInt32} (h : a ∉ s.balances.keys) :
    s.getBalance a = 0 := by
  rw [EntryMap.mem_keys, Option.not_isSome_iff_eq_none] at h
  rw [State.getBalance, h]
  rfl

/-- A transfer to account 3 and back adds an account of balance 0: one root, the same
balances. Without the way back account 0 differs, and so do the roots. -/
theorem near_accounts_bound :
    ((ledgerAfter (Wide.genesis 3) []).balances.size = 3 ∧
      (ledgerAfter (Wide.genesis 3) [[⟨0, 3, 2⟩], [⟨3, 0, 2⟩]]).balances.size = 4 ∧
      ∀ a, (ledgerAfter (Wide.genesis 3) []).getBalance a =
        (ledgerAfter (Wide.genesis 3) [[⟨0, 3, 2⟩], [⟨3, 0, 2⟩]]).getBalance a) ∧
    ¬ ∃ root, computeStateRoot Wide.crypto (ledgerAfter (Wide.genesis 3) []) = some root ∧
      computeStateRoot Wide.crypto (ledgerAfter (Wide.genesis 3) [[⟨0, 3, 2⟩]]) = some root := by
  have hcount : leafCount (ledgerAfter (Wide.genesis 3) []) = 4 := by decide +kernel
  constructor
  · have hroots : computeStateRoot Wide.crypto (ledgerAfter (Wide.genesis 3) []) =
        computeStateRoot Wide.crypto
          (ledgerAfter (Wide.genesis 3) [[⟨0, 3, 2⟩], [⟨3, 0, 2⟩]]) := by
      decide +kernel
    obtain ⟨root, hroot⟩ := (computeStateRoot_isSome (C := Wide.crypto)
      (ledgerAfter (Wide.genesis 3) [])).mpr (by rw [hcount]; decide)
    refine ⟨rfl, rfl, ?_⟩
    refine (root_binds_ledger Wide.ideal _ _ _).mpr ?_ ⟨root, hroot, hroots ▸ hroot⟩
    refine Or.inr (Or.inr (Or.inr (fun a ha => ?_)))
    rw [hcount] at ha
    have habsent : ∀ s : State, s.balances.keys ⊆ [0, 1, 2, 3] → s.getBalance a = 0 := by
      intro s hs
      refine getBalance_absent (fun hmem => ?_)
      have hlow := hs hmem
      simp only [List.mem_cons, List.not_mem_nil, or_false] at hlow
      rcases hlow with rfl | rfl | rfl | rfl <;> exact absurd ha (by decide)
    rw [habsent _ (by decide), habsent _ (by decide)]
  · intro hroots
    have hsame := (root_binds_ledger Wide.ideal _ _ _).mpr
      (Or.inr (Or.inr (Or.inl ⟨0, by rw [hcount]; decide, by decide +kernel⟩))) hroots 0
    exact absurd hsame (by decide +kernel)

/-- One transfer to account 5 and the same to account 7: one root, two ledgers. -/
theorem far_accounts_unbound : Ideal Wide.crypto ∧
    (∃ root, computeStateRoot Wide.crypto (ledgerAfter (Wide.genesis 1) [[⟨0, 5, 1⟩]]) =
        some root ∧
      computeStateRoot Wide.crypto (ledgerAfter (Wide.genesis 1) [[⟨0, 7, 1⟩]]) = some root) ∧
    (ledgerAfter (Wide.genesis 1) [[⟨0, 5, 1⟩]]).getBalance 5 ≠
      (ledgerAfter (Wide.genesis 1) [[⟨0, 7, 1⟩]]).getBalance 5 := by
  have hsame : computeStateRoot Wide.crypto (ledgerAfter (Wide.genesis 1) [[⟨0, 5, 1⟩]]) =
      computeStateRoot Wide.crypto (ledgerAfter (Wide.genesis 1) [[⟨0, 7, 1⟩]]) := by
    decide +kernel
  obtain ⟨root, hroot⟩ := (computeStateRoot_isSome (C := Wide.crypto)
    (ledgerAfter (Wide.genesis 1) [[⟨0, 5, 1⟩]])).mpr (by decide +kernel)
  exact ⟨Wide.ideal, ⟨root, hroot, hsame ▸ hroot⟩, by decide +kernel⟩

end ZkStf
