import ZkStf.Basis.Linked
import ZkStf.Proofs.Playback

namespace ZkStf
open ZkStf.Basis
variable {C : Crypto}

theorem txBytes_splits : Splits txBytes := by
  intro a b x y h
  simp only [txBytes, List.append_assoc] at h
  obtain ⟨hfrom, h⟩ := le32_splits _ _ _ _ h
  obtain ⟨hto, h⟩ := le32_splits _ _ _ _ h
  obtain ⟨hamount, hrest⟩ := le64_splits _ _ _ _ h
  cases a
  cases b
  simp only [Tx.mk.injEq]
  exact ⟨⟨hfrom, hto, hamount⟩, hrest⟩

theorem txBytes_ne_nil (tx : Tx) : txBytes tx ≠ [] := by
  simp [txBytes, le32, leBytes]

/-- The hashed bytes carry no count and no separator; the width of a transaction
is enough. -/
theorem hashTransactions_injective (hsha : Function.Injective C.sha256) :
    Function.Injective (hashTransactions C) := by
  intro txs txs' h
  exact txBytes_splits.flatMap_injective txBytes_ne_nil (hsha h)

/-- Nodes linked from the genesis hash on, with the transactions of each. -/
structure Chain (C : Crypto) where
  nodes : List (Node C)
  txs : List (List Tx)
  linked : Linked Node.parent nodeHash (genesisHash C) nodes
  cmds : nodes.map Node.cmd = txs.map (hashTransactions C)

namespace Chain

def tip (c : Chain C) : C.Hash := Basis.tip nodeHash (genesisHash C) c.nodes

def genesis : Chain C := ⟨[], [], ⟨by simp, by simp⟩, rfl⟩

/-- One more block on top. -/
def push (c : Chain C) (height : UInt64) (block : List Tx) : Chain C where
  nodes := c.nodes ++ [⟨c.tip, hashTransactions C block, height⟩]
  txs := c.txs ++ [block]
  linked := linked_concat.mpr ⟨c.linked, rfl⟩
  cmds := by simp [c.cmds]

end Chain

/-- A node hash fixes all that happened before it. -/
theorem tip_fixes_history (hsha : Function.Injective C.sha256) (hbytes : Splits C.bytes)
    (hgenesis : ∀ node : Node C, nodeHash node ≠ genesisHash C) (c d : Chain C)
    (h : c.tip = d.tip) :
    c.nodes.length = d.nodes.length ∧ c.nodes.map Node.height = d.nodes.map Node.height ∧
      c.txs = d.txs := by
  have hnodes : c.nodes = d.nodes :=
    c.linked.eq_of_tip (nodeHash_injective hsha hbytes) hgenesis d.linked h
  refine ⟨by rw [hnodes], by rw [hnodes], ?_⟩
  have hcmds : c.txs.map (hashTransactions C) = d.txs.map (hashTransactions C) := by
    rw [← c.cmds, ← d.cmds, hnodes]
  exact (hashTransactions_injective hsha).list_map hcmds

/-- One transaction moved from the first block into the second leads to another tip. -/
theorem moved_transaction_shows : ∃ c d e : Chain plainCrypto,
    c.tip = d.tip ∧ d.txs = [[⟨0, 1, 5⟩, ⟨1, 2, 5⟩], []] ∧ c.txs = d.txs ∧
      e.txs = [[⟨0, 1, 5⟩], [⟨1, 2, 5⟩]] ∧ c.tip ≠ e.tip := by
  let c : Chain plainCrypto := (Chain.genesis.push 1 [⟨0, 1, 5⟩, ⟨1, 2, 5⟩]).push 2 []
  let e : Chain plainCrypto := (Chain.genesis.push 1 [⟨0, 1, 5⟩]).push 2 [⟨1, 2, 5⟩]
  have hfixed := tip_fixes_history (C := plainCrypto) tabled_injective tabled_splits
    tabled_nodes_fresh
  refine ⟨c, c, e, rfl, rfl, (hfixed c c rfl).2.2, rfl, ?_⟩
  intro h
  have htxs : [[(⟨0, 1, 5⟩ : Tx), ⟨1, 2, 5⟩], []] = [[⟨0, 1, 5⟩], [⟨1, 2, 5⟩]] :=
    (hfixed c e h).2.2
  simp at htxs

end ZkStf
