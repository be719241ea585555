import ZkStf.Basis.Linked
import ZkStf.Proofs.ProofChain

namespace ZkStf
open ZkStf.Basis
open ZkStf.Basis.Ballots
open Relation (ReflTransGen)
variable {C : Crypto}

/-- The nodes a replica has executed are those of the heights 0, 1, 2 and so on. -/
structure Numbered (r : Replica C) : Prop where
  length : (r.executed.length : Int) = r.rs.lastExecutedHeight + 1
  height : ∀ k h, r.executed[k]? = some h → ∃ node : Node C, nodeHash node = h ∧
    node.height.toNat = k

section
variable {keys : Nat → Option C.Key} {arrives : Wire C → Prop} {w : Wiring C} {n : Nat}
  {r r' : Replica C} {m : Machine C}

theorem asI64_of_nonneg {height : UInt64} (h : 0 ≤ asI64 height) :
    asI64 height = height.toNat := by
  change 0 ≤ height.toBitVec.toInt at h
  change height.toBitVec.toInt = height.toBitVec.toNat
  have hlt := height.toBitVec.isLt
  rw [BitVec.toInt_eq_toNat_cond] at h ⊢
  by_cases hsign : 2 * height.toBitVec.toNat < 2 ^ 64
  · rw [if_pos hsign]
  · rw [if_neg hsign] at h
    omega

theorem Numbered.move (h : Numbered r)
    (ht : ∀ x node, r.rs.tree.get? x = some node → nodeHash node = x)
    (hm : Move keys arrives w r r') : Numbered r' := by
  rcases hm.execute_cases with ⟨hexec, hlast⟩ | ⟨_, nh, node, _, _, hget, hnext, _, hexec, hlast⟩
  · exact ⟨by rw [hexec, hlast]; exact h.length, by rw [hexec]; exact h.height⟩
  · have hlen := h.length
    have hheight : asI64 node.height = node.height.toNat := asI64_of_nonneg (by omega)
    refine ⟨?_, ?_⟩
    · rw [hexec, hlast, List.length_append, List.length_singleton]
      omega
    · intro k x hk
      rw [hexec] at hk
      rcases Nat.lt_trichotomy k r.executed.length with hlt | rfl | hgt
      · rw [List.getElem?_append_left hlt] at hk
        exact h.height k x hk
      · rw [List.getElem?_concat_length] at hk
        cases hk
        exact ⟨node, ht _ _ hget, by omega⟩
      · rw [List.getElem?_eq_none (by simpa [Nat.succ_le_iff] using hgt)] at hk
        cases hk

theorem Numbered.start : Numbered (startProtocol w (bootReplica w n)) := by
  have hnone : (startProtocol w (bootReplica w n)).executed = [] := by
    rw [startProtocol, enterNewView_eq]
    simp only [Replica.executed]
    split <;> simp [bootReplica, Effect.executedHash]
  refine ⟨?_, ?_⟩
  · rw [hnone, startProtocol, enterNewView_eq]
    rfl
  · simp [hnone]

/-- Whatever happens to a replica, it executes one node of each height in turn. -/
theorem reach_numbered (hinj : Function.Injective (nodeHash (C := C)))
    (hr : Machine.Reach w n m) : Numbered m.replica := by
  have hinv := reach_invariant (w := w) (n := n) (m := m) (P := fun r =>
    (∀ h node, r.rs.tree.get? h = some node → nodeHash node = h) ∧ Numbered r) ?_ ?_ hr
  · exact hinv.2
  · refine ⟨?_, .start⟩
    rw [startProtocol, enterNewView_tree]
    simp [bootReplica, ReplicaState.new]
  · rintro keys r r' ⟨ht, hn⟩ hm
    exact ⟨(hm.tree_grow hinj ht).1, hn.move ht hm⟩

/-- A node that has executed nothing has chained no root. -/
theorem reach_unchained (hr : Machine.Reach w n m) :
    -1 ≤ m.replica.rs.lastExecutedHeight ∧
      (m.replica.rs.lastExecutedHeight = -1 → m.replica.chainedRoot = C.zero) := by
  refine reach_invariant (w := w) (n := n) (m := m) (P := fun r => -1 ≤ r.rs.lastExecutedHeight ∧
    (r.rs.lastExecutedHeight = -1 → r.chainedRoot = C.zero)) ?_ ?_ hr
  · rw [startProtocol, enterNewView_eq]
    exact ⟨le_rfl, fun _ => rfl⟩
  · rintro keys r r' ⟨hlow, hroot⟩ hm
    rcases hm.ledger_cases with hs | ⟨k, req, input, out, _, _, rfl⟩ |
      ⟨leafHash, node, block, input, _, _, _, _, rfl⟩ | ⟨nh, node, _, hnext, _, happ⟩
    · rw [hs.last, hs.root]
      exact ⟨hlow, hroot⟩
    · exact ⟨hlow, hroot⟩
    · exact ⟨hlow, hroot⟩
    · have hlast : r'.rs.lastExecutedHeight = asI64 node.height := by
        rw [(applyNode_frame happ).1]
      refine ⟨by omega, ?_⟩
      intro hnone
      omega

/-- Verifying nodes at the same height have chained the same root, which is in
the proof file of that height. -/
theorem chained_alike (hinj : Function.Injective (nodeHash (C := C))) (w w' : Wiring C) {n' : Nat}
    {m' : Machine C} {vkey vkey' : C.VKey} (hwl : w'.workload = w.workload)
    (hv : w.validator = .verify vkey) (hv' : w'.validator = .verify vkey')
    (hr : Machine.Reach w n m) (hr' : Machine.Reach w' n' m')
    (hlast : m.replica.rs.lastExecutedHeight = m'.replica.rs.lastExecutedHeight) :
    m.replica.chainedRoot = m'.replica.chainedRoot := by
  rcases (reach_chained hinj hv hr).root with hnone | ⟨height, proof, hh, hacc, hroot⟩
  · rw [(reach_unchained hr).2 hnone, (reach_unchained hr').2 (hlast ▸ hnone)]
  rcases (reach_chained hinj hv' hr').root with hnone' | ⟨height', proof', hh', hacc', hroot'⟩
  · omega
  · have hheight : height = height' := UInt64.toNat_inj.mp (by omega)
    subst hheight
    rw [hwl] at hacc'
    cases hacc.1.symm.trans hacc'.1
    rw [hroot, hroot']

/-- A node gets into the tree on top of a certificate that was checked on arrival,
or of one that a NEW-VIEW brought. -/
theorem Move.tree_grounds (hm : Move keys arrives w r r') :
    r'.rs.tree = r.rs.tree ∨ ∃ (node : Node C) (high : Option (QC C)),
      r'.rs.tree = r.rs.tree.insert (nodeHash node) node ∧ node.parent = expectedParent high ∧
      ∀ qc, high = some qc →
        (∃ msg, arrives msg ∧ qc ∈ msg.certs ∧ verifyQc qc r.rs.quorum keys = true) ∨
          ∃ v sender, (r.rs.viewData v).newViewMsgs.get? sender = some (some qc) := by
  cases hm with
  | stash view node justify sender arrived leader sigs parent =>
    refine Or.inr ⟨node, justify, rfl, parent, ?_⟩
    rintro qc rfl
    exact Or.inl ⟨_, arrived, by simp [Wire.certs], sigs⟩
  | propose newViews leaf leader once read enough parent height inRange block =>
    refine Or.inr ⟨leaf, highQc newViews, rfl, parent, ?_⟩
    intro qc hq
    obtain ⟨sender, hmem⟩ := highQc_mem hq
    exact Or.inr ⟨_, sender, EntryMap.get?_eq_some.mpr (read.mem_iff.mp hmem)⟩
  | receive ty p view qc => left; simp only [withRs_rs, receiveQc_eq, stageQc_eq]; rfl
  | enter timeout => left; rw [enterNewView_eq]; rfl
  | prepare => left; rw [castVote_eq]; rfl
  | preCommit => left; rw [castVote_eq]; rfl
  | commit => left; rw [castVote_eq]; rfl
  | certify p ord qc => left; simp only [emit_rs, withRs_rs, stageQc_eq]; rfl
  | execute decided nh node r' known path found next valid applied =>
    left
    rw [(applyNode_frame applied).1]
  | _ => exact Or.inl rfl

end

/-- Each node of the tree stands on genesis or on a certified node. -/
def Grounded (K : Cluster C) (rs : Nat → Replica C) (r : Replica C) : Prop :=
  ∀ h node, r.rs.tree.get? h = some node →
    node.parent = genesisHash C ∨ K.Backed rs node.parent

/-- What holds of the honest nodes as long as the heights of proposals are right. -/
structure Replicated (K : Cluster C) (rs : Nat → Replica C) : Prop where
  logged : ∃ log, Logged K rs log
  diligent : K.Diligent Consistent rs
  executed : ∀ i, K.Honest i → Executed (rs i)
  grounded : ∀ i, K.Honest i → Grounded K rs (rs i)

section
variable {K : Cluster C} {rs : Nat → Replica C} {i j : Nat} {r' : Replica C} {s : System C}

theorem Cluster.Backed.mono {h : C.Hash} {rs' : Nat → Replica C} (hb : K.Backed rs h)
    (hg : ∀ i d, votesOf rs i d → votesOf rs' i d) : K.Backed rs' h := by
  obtain ⟨qc, hqc, rfl⟩ := hb
  exact ⟨qc, hqc.mono hg, rfl⟩

theorem grounded_move (h : ∀ i, K.Honest i → Grounded K rs (rs i)) (hs : Sane K rs)
    (hi : K.Honest i) (hm : Move K.peerKeys (K.Authentic rs i) (K.wiring i) (rs i) r')
    (hj : K.Honest j) : Grounded K (Function.update rs i r') (Function.update rs i r' j) := by
  have hgrow := votesOf_grow hm
  have hold : ∀ j, K.Honest j → Grounded K (Function.update rs i r') (rs j) :=
    fun j hj x node hget => (h j hj x node hget).imp_right (fun hb => hb.mono hgrow)
  by_cases hji : j = i
  · subst j
    rw [Function.update_self]
    intro x node hget
    rcases hm.tree_grounds with he | ⟨node', high, he, hparent, hcert⟩
    · exact hold i hi x node (he ▸ hget)
    rw [he, EntryMap.get?_insert] at hget
    split at hget
    · cases hget
      cases high with
      | none => exact Or.inl hparent
      | some qc =>
        have hgood : K.Certifies (votesOf rs) qc := by
          rcases hcert qc rfl with ⟨msg, ha, hqc, hv⟩ | ⟨v, sender, hnv⟩
          · exact Cluster.attested_of_verified ha.1 hqc ((hs.holds i hi).quorum ▸ hv)
          · exact ((hs.holds i hi).views v).newViews sender qc hnv
        exact Or.inr ⟨qc, hgood.mono hgrow, hparent.symm⟩
    · exact hold i hi x node hget
  · rw [Function.update_of_ne hji]
    exact hold j hj

theorem Replicated.start (K : Cluster C) :
    Replicated K (fun i => startProtocol (K.wiring i) (bootReplica (K.wiring i) K.n)) where
  logged := ⟨[], Logged.start K⟩
  diligent := diligent_start K
  executed _ _ := .start
  grounded i _ x node hget := by
    rw [startProtocol, enterNewView_tree] at hget
    simp [bootReplica, ReplicaState.new] at hget

theorem Replicated.move (h : Replicated K rs) (hinj : Function.Injective (nodeHash (C := C)))
    (hgen : ∀ node : Node C, nodeHash node ≠ genesisHash C) (hf : K.byz.card ≤ K.faults)
    (hs : Sane K rs) (hi : K.Honest i)
    (hm : Move K.peerKeys (K.Ordered rs i) (K.wiring i) (rs i) r') :
    Replicated K (Function.update rs i r') := by
  have ha : Move K.peerKeys (K.Authentic rs i) (K.wiring i) (rs i) r' := hm.mono (fun _ h => h.1)
  obtain ⟨log, hl⟩ := h.logged
  refine ⟨hl.move hs (Cluster.intersecting hi hf) hi ha, ?_, ?_,
    fun j hj => grounded_move h.grounded hs hi ha hj⟩
  · refine diligent_move h.diligent hs hi ?_ ?_ hm
    · intro view node justify sender harr
      exact harr.2 node rfl
    · intro node high hparent hheight hgood
      exact own_proposal_consistent hinj hgen hf hs h.diligent hi hparent hheight hgood
  · intro j hj
    by_cases hji : j = i
    · subst j
      rw [Function.update_self]
      exact executed_move hinj hgen hf hs hl h.diligent hi (h.executed i hi) hm
    · rw [Function.update_of_ne hji]
      exact h.executed j hj

theorem ordered_replicated (hinj : Function.Injective (nodeHash (C := C)))
    (hgen : ∀ node : Node C, nodeHash node ≠ genesisHash C) (hf : K.byz.card ≤ K.faults)
    (hr : System.Reach K K.Ordered s) : Sane K s.replicas ∧ Replicated K s.replicas := by
  have hgrow : Growing K.Ordered := by
    intro rs rs' hg j msg ha
    exact ⟨K.authentic_growing rs rs' hg j msg ha.1, ha.2⟩
  refine authentic_invariant (P := Replicated K) hgrow (fun _ _ _ h => h.1) (.start K) ?_ hr
  intro rs i r' hi hs _ h hm
  exact h.move hinj hgen hf hs hi hm

theorem Replicated.tree_consistent (h : Replicated K rs)
    (hinj : Function.Injective (nodeHash (C := C))) (hf : K.byz.card ≤ K.faults) (hs : Sane K rs)
    (hi : K.Honest i) : TreeConsistent (rs i).rs.tree := by
  rintro ⟨x, node⟩ hentry
  have hget : (rs i).rs.tree.get? x = some node := EntryMap.get?_eq_some.mpr hentry
  have hfit := (h.diligent i hi).tree x node hget
  refine ⟨⟨hfit.1, ?_⟩, ?_⟩
  · intro hzero
    rcases h.grounded i hi x node hget with hroot | hback
    · exact hroot
    · obtain ⟨parent, _, hn, _⟩ := hs.backed (Cluster.intersecting hi hf) hinj h.diligent hback
      have hnext := hfit.2 parent hn
      have hcast : node.height.toNat = 0 := by
        rw [show node.height = 0 from hzero]
        rfl
      omega
  · intro parent hparent
    exact hfit.2 parent ((hs.holds i hi).tree _ _ hparent)

theorem parents_rooted (hinj : Function.Injective (nodeHash (C := C)))
    (hgen : ∀ node : Node C, nodeHash node ≠ genesisHash C) :
    Rooted (ParentOf (C := C)) (genesisHash C) where
  unique := by
    rintro x y z ⟨m, hm, rfl⟩ ⟨m', hm', rfl⟩
    rw [hinj (hm.trans hm'.symm)]
  lowest := by
    rintro x ⟨node, hnode, _⟩
    exact hgen node hnode

/-- The last executed node lies under a decided one. -/
theorem Executed.top {r : Replica C} (h : Executed r) : r.executed = [] ∨ ∃ d,
    (r.rs.decidedNodes.get? d).isSome ∧ Extends d (r.executed.getLastD (genesisHash C)) := by
  rcases List.eq_nil_or_concat r.executed with hnil | ⟨before, last, hsome⟩
  · exact Or.inl hnil
  · rw [List.concat_eq_append] at hsome
    obtain ⟨_, d, _, _, hdec, hext⟩ := h.last last (by rw [hsome, List.getLast?_concat])
    refine Or.inr ⟨d, hdec, ?_⟩
    rw [hsome, List.getLastD_concat]
    exact hext

/-- What two honest nodes have executed lies on one branch. -/
theorem Replicated.comparable (h : Replicated K rs)
    (hinj : Function.Injective (nodeHash (C := C)))
    (hgen : ∀ node : Node C, nodeHash node ≠ genesisHash C) (hf : K.byz.card ≤ K.faults)
    (hs : Sane K rs) (hi : K.Honest i) (hj : K.Honest j) :
    (rs i).executed <+: (rs j).executed ∨ (rs j).executed <+: (rs i).executed := by
  obtain ⟨log, hl⟩ := h.logged
  have hx := h.executed i hi
  have hy := h.executed j hj
  have hr := parents_rooted hinj hgen
  rcases hx.top with hnil | ⟨d, hdec, hext⟩
  · exact Or.inl (hnil ▸ List.nil_prefix)
  rcases hy.top with hnil | ⟨d', hdec', hext'⟩
  · exact Or.inr (hnil ▸ List.nil_prefix)
  have hline : Extends ((rs i).executed.getLastD (genesisHash C))
      ((rs j).executed.getLastD (genesisHash C)) ∨
      Extends ((rs j).executed.getLastD (genesisHash C))
        ((rs i).executed.getLastD (genesisHash C)) := by
    rcases hl.comparable hs hf hi hj hdec hdec' with hcmp | hcmp
    · exact extends_total hinj hext (hcmp.trans hext')
    · exact extends_total hinj (hcmp.trans hext) hext'
  rcases hline with hline | hline
  · exact Or.inr (Branch.isPrefix hr hy.chain hx.chain hline)
  · exact Or.inl (Branch.isPrefix hr hx.chain hy.chain hline)

/-- State machine replication. Of what two honest nodes have executed, one is the
beginning of the other, whatever the byzantine nodes send, as long as the heights
of the proposals are right. At the same height two nodes have executed the same
nodes; two that re-execute hold the same balances then, and two that verify the
same root. -/
theorem executed_logs_agree (hinj : Function.Injective (nodeHash (C := C)))
    (hgen : ∀ node : Node C, nodeHash node ≠ genesisHash C) (hf : K.byz.card ≤ K.faults)
    (hr : System.Reach K K.Ordered s) (hi : K.Honest i) (hj : K.Honest j) :
    ((s i).replica.executed <+: (s j).replica.executed ∨
      (s j).replica.executed <+: (s i).replica.executed) ∧
    ((s i).replica.rs.lastExecutedHeight = (s j).replica.rs.lastExecutedHeight →
      (s i).replica.executed = (s j).replica.executed ∧
      ((K.validator i).reexecutes = true → (K.validator j).reexecutes = true →
        (s i).replica.liveState = (s j).replica.liveState) ∧
      ∀ vkey vkey', K.validator i = .verify vkey → K.validator j = .verify vkey' →
        (s i).replica.chainedRoot = (s j).replica.chainedRoot) := by
  obtain ⟨hs, h⟩ := ordered_replicated hinj hgen hf hr
  have hri := hr.machine i
  have hrj := hr.machine j
  have hcmp : (s i).replica.executed <+: (s j).replica.executed ∨
      (s j).replica.executed <+: (s i).replica.executed := h.comparable hinj hgen hf hs hi hj
  refine ⟨hcmp, fun hlast => ⟨?_, ?_, ?_⟩⟩
  · have hlen : (s i).replica.executed.length = (s j).replica.executed.length := by
      have := (reach_numbered hinj hri).length
      have := (reach_numbered hinj hrj).length
      omega
    rcases hcmp with hp | hp
    · exact hp.eq_of_length hlen
    · exact (hp.eq_of_length hlen.symm).symm
  · intro hvi hvj
    have hli := (reach_folded (w := K.wiring i) hinj hvi hri (h.tree_consistent hinj hf hs hi)).live
    have hlj := (reach_folded (w := K.wiring j) hinj hvj hrj (h.tree_consistent hinj hf hs hj)).live
    rw [hlast] at hli
    exact Option.some.inj (hli.symm.trans hlj)
  · intro vkey vkey' hvi hvj
    exact chained_alike hinj (K.wiring i) (K.wiring j) rfl hvi hvj hri hrj hlast

end

theorem quartet_replicates : ∃ s : System Quartet.crypto,
    System.Reach Quartet.cluster Quartet.cluster.Ordered s ∧
      (s 1).replica.rs.lastExecutedHeight = 1 ∧
      (s 0).replica.executed = (s 1).replica.executed ∧
      (s 0).replica.liveState = (s 1).replica.liveState := by
  have hplay : (System.play Quartet.cluster Quartet.TwoProposed Quartet.bothBlocks
      (System.start Quartet.cluster)).any (fun s =>
        decide ((s 0).replica.rs.lastExecutedHeight = 1 ∧
          (s 1).replica.rs.lastExecutedHeight = 1)) = true := by
    decide +kernel
  obtain ⟨s, hr, hc⟩ := play_exists hplay
  have hr' := Quartet.ordered_reach hr
  obtain ⟨h0, h1⟩ := of_decide_eq_true hc
  obtain ⟨hexec, hlive, _⟩ := (executed_logs_agree tabled_nodes_apart tabled_nodes_fresh
    (by decide) hr' (i := 0) (j := 1) (by decide) (by decide)).2 (h0.trans h1.symm)
  exact ⟨s, hr', h1, hexec, hlive rfl rfl⟩

end ZkStf
