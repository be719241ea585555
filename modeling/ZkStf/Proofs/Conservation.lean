import ZkStf.Model.Ledger

namespace ZkStf
open ZkStf.Basis

/-- The exact sum of all balances. -/
def State.total (s : State) : Nat := s.balances.sum UInt64.toNat

/-- The transactions of a block that are applied, counted exactly. -/
def applied (acc : State × UInt32) : List Tx → Nat
  | [] => 0
  | tx :: txs =>
    (if tx.amount ≤ acc.1.getBalance tx.fromAccount ∧ 0 < tx.amount ∧
      tx.fromAccount ≠ tx.toAccount then 1 else 0) + applied (applyTx acc tx) txs

theorem getBalance_toNat (s : State) (account : UInt32) :
    (s.getBalance account).toNat = ((s.balances.get? account).map UInt64.toNat).getD 0 := by
  unfold State.getBalance
  cases s.balances.get? account <;> rfl

theorem getBalance_le (s : State) (account : UInt32) :
    (s.getBalance account).toNat ≤ s.total := by
  rw [getBalance_toNat]
  cases h : s.balances.get? account with
  | none => exact Nat.zero_le _
  | some b => exact EntryMap.le_sum UInt64.toNat h

theorem total_setBalance (s : State) (account : UInt32) (amount : UInt64) :
    (s.setBalance account amount).total + (s.getBalance account).toNat =
      s.total + amount.toNat := by
  rw [getBalance_toNat]
  exact EntryMap.sum_insert UInt64.toNat s.balances account amount

/-- What one transaction does: nothing, or a debit followed by a credit that may
wrap. -/
theorem applyTx_cases (acc : State × UInt32) (tx : Tx) (txs : List Tx) :
    (applyTx acc tx = acc ∧ txOverflows acc tx = [] ∧ applied acc (tx :: txs) = applied acc txs) ∨
    ∃ debited : State, debited.total + tx.amount.toNat = acc.1.total ∧
      (applyTx acc tx).1.total + (debited.getBalance tx.toAccount).toNat =
        debited.total + ((debited.getBalance tx.toAccount).toNat + tx.amount.toNat) % 2 ^ 64 ∧
      (applyTx acc tx).2 = acc.2 + 1 ∧
      applied acc (tx :: txs) = 1 + applied (applyTx acc tx) txs ∧
      txOverflows acc tx =
        (if 2 ^ 64 ≤ (debited.getBalance tx.toAccount).toNat + tx.amount.toNat
          then [.credit] else []) ++ (if 2 ^ 32 ≤ acc.2.toNat + 1 then [.count] else []) := by
  by_cases hg : tx.amount ≤ acc.1.getBalance tx.fromAccount ∧ 0 < tx.amount ∧
      tx.fromAccount ≠ tx.toAccount
  · right
    have hle : tx.amount.toNat ≤ (acc.1.getBalance tx.fromAccount).toNat :=
      UInt64.le_iff_toNat_le.mp hg.1
    refine ⟨acc.1.setBalance tx.fromAccount (acc.1.getBalance tx.fromAccount - tx.amount),
      ?_, ?_, ?_, ?_, ?_⟩
    · have hd := total_setBalance acc.1 tx.fromAccount
        (acc.1.getBalance tx.fromAccount - tx.amount)
      rw [UInt64.toNat_sub_of_le _ _ hg.1] at hd
      omega
    · simp only [applyTx, if_pos hg]
      rw [total_setBalance, UInt64.toNat_add]
    · simp only [applyTx, if_pos hg]
    · simp only [applied, if_pos hg]
    · simp only [txOverflows, if_pos hg]
      rw [if_neg (by omega), List.nil_append]
  · left
    simp only [applyTx, txOverflows, applied, if_neg hg, Nat.zero_add, and_self]

/-- One transaction keeps the sum of the balances, up to the width of a balance;
it keeps it exactly, and overflows in the count alone, where the sum fits. -/
theorem applyTx_total (acc : State × UInt32) (tx : Tx) :
    (applyTx acc tx).1.total % 2 ^ 64 = acc.1.total % 2 ^ 64 ∧
      (acc.1.total < 2 ^ 64 → (applyTx acc tx).1.total = acc.1.total ∧
        ∀ o ∈ txOverflows acc tx, o = .count) := by
  rcases applyTx_cases acc tx [] with ⟨hsame, hnone, _⟩ |
    ⟨debited, hdebit, hcredit, _, _, hover⟩
  · rw [hsame, hnone]
    exact ⟨rfl, fun _ => ⟨rfl, by simp⟩⟩
  · have hle := getBalance_le debited tx.toAccount
    refine ⟨by omega, ?_⟩
    intro hfits
    refine ⟨by omega, ?_⟩
    rw [hover, if_neg (by omega)]
    intro o ho
    split at ho
    · simpa using ho
    · cases ho

theorem block_total (acc : State × UInt32) (txs : List Tx) :
    (txs.foldl applyTx acc).1.total % 2 ^ 64 = acc.1.total % 2 ^ 64 ∧
      (acc.1.total < 2 ^ 64 → (txs.foldl applyTx acc).1.total = acc.1.total ∧
        ∀ o ∈ overflows acc txs, o = .count) := by
  induction txs generalizing acc with
  | nil => exact ⟨rfl, fun _ => ⟨rfl, by simp [overflows]⟩⟩
  | cons tx txs ih =>
    obtain ⟨hmod, hexact⟩ := applyTx_total acc tx
    obtain ⟨ihmod, ihexact⟩ := ih (applyTx acc tx)
    refine ⟨ihmod.trans hmod, ?_⟩
    intro hfits
    obtain ⟨hsame, hcount⟩ := hexact hfits
    obtain ⟨hrest, hcounts⟩ := ihexact (by omega)
    refine ⟨hrest.trans hsame, ?_⟩
    intro o ho
    rcases List.mem_append.mp ho with ho | ho
    · exact hcount o ho
    · exact hcounts o ho

/-- The count overflows once 2^32 transactions are applied, and not before. -/
theorem count_overflows (acc : State × UInt32) (txs : List Tx) :
    .count ∈ overflows acc txs ↔ 2 ^ 32 ≤ acc.2.toNat + applied acc txs := by
  induction txs generalizing acc with
  | nil =>
    have hlt := acc.2.toNat_lt
    simp only [overflows, applied, List.not_mem_nil, false_iff]
    omega
  | cons tx txs ih =>
    have hlt := acc.2.toNat_lt
    rw [overflows, List.mem_append, ih]
    rcases applyTx_cases acc tx txs with ⟨hsame, hnone, happ⟩ |
      ⟨debited, _, _, hnext, happ, hover⟩
    · rw [hsame, hnone, happ]
      simp
    · rw [hover, hnext, happ, UInt32.toNat_add]
      by_cases hwrap : 2 ^ 32 ≤ acc.2.toNat + 1
      · rw [if_pos hwrap]
        simp only [List.mem_append, List.mem_singleton, or_true, true_or, true_iff]
        omega
      · have hmem : Overflow.count ∉
            (if 2 ^ 64 ≤ (debited.getBalance tx.toAccount).toNat + tx.amount.toNat
              then [Overflow.credit] else []) ++ [] := by
          split <;> simp
        rw [if_neg hwrap]
        simp only [hmem, false_or]
        rw [Nat.mod_eq_of_lt (by simpa using by omega)]
        simp only [UInt32.reduceToNat]
        omega

theorem applied_le (acc : State × UInt32) (txs : List Tx) : applied acc txs ≤ txs.length := by
  induction txs generalizing acc with
  | nil => exact Nat.le_refl _
  | cons tx txs ih =>
    have hrest := ih (applyTx acc tx)
    simp only [applied, List.length_cons]
    split <;> omega

/-- Where all the money there is fits one balance, a block of fewer than 2^32
transactions overflows nowhere. -/
theorem block_fits {s : State} {txs : List Tx} (hfits : s.total < 2 ^ 64)
    (hshort : txs.length < 2 ^ 32) : overflows (s, 0) txs = [] := by
  apply List.eq_nil_iff_forall_not_mem.mpr
  intro o ho
  cases ((block_total (s, 0) txs).2 hfits).2 o ho
  have hcount := (count_overflows (s, 0) txs).mp ho
  have happlied := applied_le (s, 0) txs
  simp only [UInt32.toNat_zero] at hcount
  omega

/-- A block conserves money. The sum of the balances is kept modulo 2^64, and
exactly where it fits; then no debit and no credit leaves its type either, and
the count of applied transactions does so exactly from 2^32 of them on. -/
theorem apply_block_conserves (s : State) (txs : List Tx) :
    (applyBlock s txs).1.total % 2 ^ 64 = s.total % 2 ^ 64 ∧
    (s.total < 2 ^ 64 →
      (applyBlock s txs).1.total = s.total ∧
      (∀ o ∈ overflows (s, 0) txs, o = .count) ∧
      (.count ∈ overflows (s, 0) txs ↔ 2 ^ 32 ≤ applied (s, 0) txs) ∧
      (txs.length < 2 ^ 32 → overflows (s, 0) txs = [])) := by
  obtain ⟨hmod, hexact⟩ := block_total (s, 0) txs
  refine ⟨hmod, ?_⟩
  intro hfits
  obtain ⟨hsame, honly⟩ := hexact hfits
  have hcount := count_overflows (s, 0) txs
  simp only [UInt32.toNat_zero, Nat.zero_add] at hcount
  exact ⟨hsame, honly, hcount, block_fits hfits⟩

/-! Two accounts that pass one unit back and forth. -/
namespace Bounce

def start : State := (State.new.setBalance 0 1).setBalance 1 0

def block (n : Nat) : List Tx := (List.replicate n [⟨0, 1, 1⟩, ⟨1, 0, 1⟩]).flatten

def away : State := (State.new.setBalance 0 0).setBalance 1 1

theorem full : (1 : UInt64) ≤ start.getBalance 0 ∧ 0 < (1 : UInt64) ∧ (0 : UInt32) ≠ 1 := by
  decide

theorem empty : (1 : UInt64) ≤ away.getBalance 1 ∧ 0 < (1 : UInt64) ∧ (1 : UInt32) ≠ 0 := by
  decide

theorem forth (count : UInt32) : applyTx (start, count) ⟨0, 1, 1⟩ = (away, count + 1) := by
  rw [applyTx, if_pos full]
  with_unfolding_all rfl

theorem back (count : UInt32) : applyTx (away, count) ⟨1, 0, 1⟩ = (start, count + 1) := by
  rw [applyTx, if_pos empty]
  with_unfolding_all rfl

/-- Each round is applied in full and ends where it began. -/
theorem applied_block (n : Nat) (count : UInt32) : applied (start, count) (block n) = 2 * n := by
  induction n generalizing count with
  | zero => rfl
  | succ n ih =>
    change applied (start, count) (⟨0, 1, 1⟩ :: ⟨1, 0, 1⟩ :: block n) = 2 * (n + 1)
    rw [applied, if_pos full, forth, applied, if_pos empty, back, ih]
    omega

end Bounce

theorem bounce_conserves : Bounce.start.total < 2 ^ 64 ∧
    overflows (Bounce.start, 0) (Bounce.block 3) = [] ∧
    (applyBlock Bounce.start (Bounce.block 3)).1.total = Bounce.start.total := by
  have hfits : Bounce.start.total < 2 ^ 64 := by decide
  obtain ⟨hsame, _, _, hshort⟩ := (apply_block_conserves Bounce.start (Bounce.block 3)).2 hfits
  exact ⟨hfits, hshort (by decide), hsame⟩

/-- After 2^31 rounds the `u32` count of applied transactions overflows, with
one unit of money in the ledger. -/
theorem bounce_count_overflows : Bounce.start.total < 2 ^ 64 ∧
    .count ∈ overflows (Bounce.start, 0) (Bounce.block (2 ^ 31)) := by
  refine ⟨by decide, (count_overflows _ _).mpr ?_⟩
  rw [Bounce.applied_block]
  simp

end ZkStf
