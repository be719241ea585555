import Mathlib.Data.Nat.Log
import ZkStf.Basis.Merkle
import ZkStf.Model.Messages

namespace ZkStf
open ZkStf.Basis

structure Tx where
  fromAccount : UInt32
  toAccount : UInt32
  amount : UInt64
deriving DecidableEq, Repr

/-- Ledger state. The ordered map of the source is only looked up, counted and
written to, so the order of its entries is free. -/
structure State where
  balances : EntryMap UInt32 UInt64

def State.new : State := ⟨.empty⟩

def State.getBalance (s : State) (account : UInt32) : UInt64 :=
  (s.balances.get? account).getD 0

def State.setBalance (s : State) (account : UInt32) (amount : UInt64) : State :=
  ⟨s.balances.insert account amount⟩

/-- One transfer. A failed guard leaves the state; the credit wraps, as the
release build does, and reads the recipient after the debit. -/
def applyTx (acc : State × UInt32) (tx : Tx) : State × UInt32 :=
  let fromBal := acc.1.getBalance tx.fromAccount
  if tx.amount ≤ fromBal ∧ 0 < tx.amount ∧ tx.fromAccount ≠ tx.toAccount then
    let debited := acc.1.setBalance tx.fromAccount (fromBal - tx.amount)
    let toBal := debited.getBalance tx.toAccount
    (debited.setBalance tx.toAccount (toBal + tx.amount), acc.2 + 1)
  else acc

/-- The state after a block, and how many of its transactions were applied. -/
def applyBlock (state : State) (txs : List Tx) : State × UInt32 :=
  txs.foldl applyTx (state, 0)

/-- The sums of `apply_block` that may leave their type: the debit, the credit
and the count of applied transfers. A build that checks for it panics there. -/
inductive Overflow
  | debit
  | credit
  | count
deriving DecidableEq, Repr

def txOverflows (acc : State × UInt32) (tx : Tx) : List Overflow :=
  let fromBal := acc.1.getBalance tx.fromAccount
  if tx.amount ≤ fromBal ∧ 0 < tx.amount ∧ tx.fromAccount ≠ tx.toAccount then
    let debited := acc.1.setBalance tx.fromAccount (fromBal - tx.amount)
    let toBal := debited.getBalance tx.toAccount
    (if fromBal.toNat < tx.amount.toNat then [.debit] else []) ++
      (if 2 ^ 64 ≤ toBal.toNat + tx.amount.toNat then [.credit] else []) ++
      (if 2 ^ 32 ≤ acc.2.toNat + 1 then [.count] else [])
  else []

/-- The overflows of a whole block, in the order they happen. -/
def overflows : State × UInt32 → List Tx → List Overflow
  | _, [] => []
  | acc, tx :: txs => txOverflows acc tx ++ overflows (applyTx acc tx) txs

/-- Smallest power of two that is not below `n`; 1 for an empty state. -/
def nextPowerOfTwo (n : Nat) : Nat := 2 ^ Nat.clog 2 n

def leafCount (s : State) : Nat := max (nextPowerOfTwo s.balances.size) 1

def leafBytes (s : State) (i : Nat) : List UInt8 :=
  le32 (UInt32.ofNat i) ++ le64 (s.getBalance (UInt32.ofNat i))

/-- An internal node of the tree. -/
def hashPair (C : Crypto) (a b : C.Hash) : C.Hash := C.sha256 (C.bytes a ++ C.bytes b)

/-- The leaf layer. The loop counts in `u32`, where a leaf count of 2^32 is 0. -/
def leafLayer (C : Crypto) (s : State) : List C.Hash :=
  (List.range (leafCount s % 2 ^ 32)).map (fun i => C.sha256 (leafBytes s i))

/-- Merkle root of the ledger; `none` where an index is out of range. -/
def computeStateRoot (C : Crypto) (s : State) : Option C.Hash :=
  Merkle.foldLayers (hashPair C) (leafLayer C s).length (leafLayer C s)

def txBytes (tx : Tx) : List UInt8 := le32 tx.fromAccount ++ le32 tx.toAccount ++ le64 tx.amount

def hashTransactions (C : Crypto) (txs : List Tx) : C.Hash := C.sha256 (txs.flatMap txBytes)

/-- The zkVM program: the public values it commits to for a state and a block of
transactions. It has no output where a root has none. -/
def guestMain (C : Crypto) (state : State) (txs : List Tx) : Option (BlockCommit C.Hash) :=
  (computeStateRoot C state).bind (fun pre =>
    (computeStateRoot C (applyBlock state txs).1).map (fun post =>
      ⟨pre, post, hashTransactions C txs⟩))

structure Manifest where
  numAccounts : UInt32
  initialBalance : UInt64
  numBlocks : UInt32
deriving DecidableEq, Repr

/-- The state a re-executing node starts from. -/
def genesisState (m : Manifest) : State :=
  (List.range m.numAccounts.toNat).foldl
    (fun s i => s.setBalance (UInt32.ofNat i) m.initialBalance) .new

end ZkStf
