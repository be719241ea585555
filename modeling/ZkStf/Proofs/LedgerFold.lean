import ZkStf.Proofs.Checks

namespace ZkStf
open ZkStf.Basis
variable {C : Crypto}

/-- The state after the blocks of heights below `k`, each applied to the state
before it; `none` where a block has no transactions file. -/
def replay (wl : Workload C) (start : State) : Nat → Option State
  | 0 => some start
  | k + 1 => (replay wl start k).bind (fun state =>
      (wl.transactions (UInt64.ofNat k)).map (fun txs => (applyBlock state txs).1))

/-- Heights in the tree continue each other: 0 exactly on genesis, and one more
than the parent's wherever the tree holds the parent. -/
def TreeConsistent (tree : EntryMap C.Hash (Node C)) : Prop :=
  ∀ entry ∈ tree.entries, (entry.2.parent = genesisHash C ↔ entry.2.height = 0) ∧
    ∀ parent ∈ tree.get? entry.2.parent, entry.2.height.toNat = parent.height.toNat + 1

instance (tree : EntryMap C.Hash (Node C)) : Decidable (TreeConsistent tree) :=
  inferInstanceAs (Decidable (∀ entry ∈ tree.entries, _))

/-- Nothing of the ledger side of a node changed. -/
structure SameLedger (r r' : Replica C) : Prop where
  last : r'.rs.lastExecutedHeight = r.rs.lastExecutedHeight
  live : r'.liveState = r.liveState
  root : r'.chainedRoot = r.chainedRoot
  queue : r'.valReqs = r.valReqs
  verdicts : r'.rs.validationResult = r.rs.validationResult
  postStates : r'.rs.postStateByNode = r.rs.postStateByNode
  postRoots : r'.rs.postRootByNode = r.rs.postRootByNode
  preRoots : r'.rs.preRootByNode = r.rs.preRootByNode

section
variable {keys : Nat → Option C.Key} {arrives : Wire C → Prop} {w : Wiring C}
  {r r' : Replica C}

/-- Only answers, requests and executions touch the ledger side. -/
theorem Move.ledger_cases (hm : Move keys arrives w r r') : SameLedger r r' ∨
    (∃ k req input out, r.valReqs[k]? = some (req, input) ∧
      runValidation w.overflowChecks w.workload req input w.validator = .ok out ∧
      r' = { r with valReqs := r.valReqs.eraseIdx k }.withRs (ingestValidation out)) ∨
    (∃ leafHash node block input, r.rs.tree.get? leafHash = some node ∧
      w.workload.block node.height = .ok block ∧ block.cmd = node.cmd ∧
      inputState r node = some input ∧ r' = submitValidation leafHash node block input r) ∨
    ∃ nh node, r.rs.tree.get? nh = some node ∧
      asI64 node.height = r.rs.lastExecutedHeight + 1 ∧
      r.rs.validationResult nh = some true ∧ applyNode nh node r = .ok r' := by
  cases hm with
  | ingest k req input out queued ran =>
    exact Or.inr (Or.inl ⟨k, req, input, out, queued, ran, rfl⟩)
  | kick leafHash node block input fresh idle found read cmd start =>
    exact Or.inr (Or.inr (Or.inl ⟨leafHash, node, block, input, found, read, cmd, start, rfl⟩))
  | execute decided nh node r' known path found next valid applied =>
    exact Or.inr (Or.inr (Or.inr ⟨nh, node, found, next, valid, applied⟩))
  | receive ty p view qc =>
    left
    rw [Replica.withRs, receiveQc_eq, stageQc_eq]
    exact ⟨rfl, rfl, rfl, rfl, rfl, rfl, rfl, rfl⟩
  | enter timeout =>
    left
    rw [enterNewView_eq]
    exact ⟨rfl, rfl, rfl, rfl, rfl, rfl, rfl, rfl⟩
  | prepare =>
    left
    rw [castVote_eq]
    exact ⟨rfl, rfl, rfl, rfl, rfl, rfl, rfl, rfl⟩
  | preCommit =>
    left
    rw [castVote_eq]
    exact ⟨rfl, rfl, rfl, rfl, rfl, rfl, rfl, rfl⟩
  | commit =>
    left
    rw [castVote_eq]
    exact ⟨rfl, rfl, rfl, rfl, rfl, rfl, rfl, rfl⟩
  | certify p ord qc =>
    left
    rw [Replica.withRs, stageQc_eq]
    exact ⟨rfl, rfl, rfl, rfl, rfl, rfl, rfl, rfl⟩
  | _ => exact Or.inl ⟨rfl, rfl, rfl, rfl, rfl, rfl, rfl, rfl⟩

/-- The tree maps hashes to nodes of that hash, and a move never replaces one. -/
theorem Move.tree_grow (hinj : Function.Injective (nodeHash (C := C)))
    (ht : ∀ h node, r.rs.tree.get? h = some node → nodeHash node = h)
    (hm : Move keys arrives w r r') :
    (∀ h node, r'.rs.tree.get? h = some node → nodeHash node = h) ∧
      ∀ h node, r.rs.tree.get? h = some node → r'.rs.tree.get? h = some node := by
  rcases hm.tree_cases with he | ⟨leaf, he, _⟩
  · rw [he]
    exact ⟨ht, fun _ _ h => h⟩
  · rw [he]
    refine ⟨tree_insert ht leaf, ?_⟩
    intro h node hget
    rw [EntryMap.get?_insert]
    split
    · rename_i hh
      rw [hinj ((ht h node hget).trans hh)]
    · exact hget

end

theorem TreeConsistent.of_grow {tree tree' : EntryMap C.Hash (Node C)} (h : TreeConsistent tree')
    (hg : ∀ x node, tree.get? x = some node → tree'.get? x = some node) :
    TreeConsistent tree := by
  intro entry he
  have hmem := EntryMap.get?_eq_some.mp (hg entry.1 entry.2 (EntryMap.get?_eq_some.mpr he))
  obtain ⟨hroot, hparent⟩ := h _ hmem
  exact ⟨hroot, fun p hp => hparent p (hg _ p hp)⟩

theorem TreeConsistent.root {tree : EntryMap C.Hash (Node C)} (h : TreeConsistent tree)
    (hget : tree.get? x = some node) : node.parent = genesisHash C ↔ node.height = 0 :=
  (h (x, node) (EntryMap.get?_eq_some.mp hget)).1

theorem TreeConsistent.parent {tree : EntryMap C.Hash (Node C)} (h : TreeConsistent tree)
    (hget : tree.get? x = some node) (hp : tree.get? node.parent = some p) :
    node.height.toNat = p.height.toNat + 1 :=
  (h (x, node) (EntryMap.get?_eq_some.mp hget)).2 p hp

/-- The ledger state of a re-executing node, its queued validations and its
cached results. Anything at or below the last executed height is stale and may
hold any state. -/
structure Folded (wl : Workload C) (start : State) (r : Replica C) : Prop where
  bottom : -1 ≤ r.rs.lastExecutedHeight
  live : replay wl start (r.rs.lastExecutedHeight + 1).toNat = some r.liveState
  queued : ∀ entry ∈ r.valReqs, ∃ node, r.rs.tree.get? entry.1.nodeHash = some node ∧
    entry.1.txsPath = node.height ∧ node.height.toNat < 2 ^ 32 ∧
    (r.rs.lastExecutedHeight < node.height.toNat →
      replay wl start node.height.toNat = some entry.2)
  verdict : ∀ h, r.rs.validationResult h = some true → ∃ node, r.rs.tree.get? h = some node ∧
    node.height.toNat < 2 ^ 32 ∧
    (r.rs.lastExecutedHeight < node.height.toNat → (r.rs.postStateByNode h).isSome)
  cached : ∀ h post, r.rs.postStateByNode h = some post → ∃ node,
    r.rs.tree.get? h = some node ∧
    (r.rs.lastExecutedHeight < node.height.toNat →
      replay wl start (node.height.toNat + 1) = some post)

section
variable {keys : Nat → Option C.Key} {arrives : Wire C → Prop} {w : Wiring C}
  {wl : Workload C} {start : State} {r r' : Replica C}

theorem Folded.frame (h : Folded wl start r) (hs : SameLedger r r')
    (hg : ∀ x node, r.rs.tree.get? x = some node → r'.rs.tree.get? x = some node) :
    Folded wl start r' := by
  refine ⟨?_, ?_, ?_, ?_, ?_⟩
  · rw [hs.last]
    exact h.bottom
  · rw [hs.last, hs.live]
    exact h.live
  · rw [hs.last, hs.queue]
    intro entry he
    obtain ⟨node, hget, hrest⟩ := h.queued entry he
    exact ⟨node, hg _ _ hget, hrest⟩
  · rw [hs.last, hs.verdicts, hs.postStates]
    intro x hx
    obtain ⟨node, hget, hrest⟩ := h.verdict x hx
    exact ⟨node, hg _ _ hget, hrest⟩
  · rw [hs.last, hs.postStates]
    intro x post hx
    obtain ⟨node, hget, hrest⟩ := h.cached x post hx
    exact ⟨node, hg _ _ hget, hrest⟩

/-- What a validation starts from: the state at the node's height. -/
theorem Folded.starts_from (h : Folded wl start r) (hc : TreeConsistent r.rs.tree)
    (hget : r.rs.tree.get? x = some node) (hsmall : node.height.toNat < 2 ^ 32)
    (hi : inputState r node = some input) (hlast : r.rs.lastExecutedHeight < node.height.toNat) :
    replay wl start node.height.toNat = some input := by
  have hbottom := h.bottom
  have hlive := h.live
  unfold inputState at hi
  split at hi
  · rename_i hroot
    split at hi
    · cases hi
    · rename_i hneg
      cases hi
      have hzero := (hc.root hget).mp hroot
      have hl : r.rs.lastExecutedHeight + 1 = 0 := by omega
      rw [hl] at hlive
      rw [hzero]
      exact hlive
  · split at hi
    · cases hi
    · rename_i parentNode hparent
      have hstep := hc.parent hget hparent
      have hp : asI64 parentNode.height = parentNode.height.toNat := asI64_of_lt (by omega)
      split at hi
      · rename_i hle
        cases hi
        have hl : (r.rs.lastExecutedHeight + 1).toNat = node.height.toNat := by omega
        rw [← hl]
        exact hlive
      · rename_i hgt
        obtain ⟨node', hget', hpost⟩ := h.cached _ _ hi
        rw [hparent] at hget'
        cases hget'
        rw [hstep]
        exact hpost (by omega)

theorem Folded.submit (h : Folded wl start r) (hc : TreeConsistent r.rs.tree)
    (hget : r.rs.tree.get? leafHash = some node) (hblock : wl.block node.height = .ok block)
    (hi : inputState r node = some input) :
    Folded wl start (submitValidation leafHash node block input r) := by
  refine { h with queued := ?_ }
  intro entry he
  rcases List.mem_append.mp he with he | he
  · exact h.queued entry he
  · cases List.mem_singleton.mp he
    have hsmall := (block_spec hblock).1
    exact ⟨node, hget, (block_spec hblock).2.1, hsmall, h.starts_from hc hget hsmall hi⟩

theorem replay_succ {k : UInt64} {state : State} {txs : List Tx}
    (h : replay wl start k.toNat = some state) (ht : wl.transactions k = some txs) :
    replay wl start (k.toNat + 1) = some (applyBlock state txs).1 := by
  simp only [replay, h, UInt64.ofNat_toNat, ht, Option.bind_some, Option.map_some]

/-- An answer that comes late, after its height was executed, changes nothing
that is still looked at. -/
theorem Folded.ingest (h : Folded wl start r) {k : Nat} {req : ValidateRequest C} {input : State}
    (hk : r.valReqs[k]? = some (req, input)) {checks : Bool} {v : Validator C}
    (hv : v.reexecutes = true) {out : ValidateOutcome C}
    (hran : runValidation checks wl req input v = .ok out) :
    Folded wl start
      ({ r with valReqs := r.valReqs.eraseIdx k }.withRs (ingestValidation out)) := by
  obtain ⟨node, hget, hpath, hsmall, hin⟩ := h.queued _ (List.mem_of_getElem? hk)
  have hqueue : ∀ entry ∈ r.valReqs.eraseIdx k, entry ∈ r.valReqs :=
    fun _ he => List.mem_of_mem_eraseIdx he
  rcases runValidation_cases hran with rfl | ⟨txs, _, htxs, rfl⟩ | ⟨vkey, _, rfl, _⟩
  · refine { h with
      queued := fun entry he => h.queued entry (hqueue entry he)
      verdict := ?_ }
    intro x hx
    simp only [withRs_rs, ingestValidation, invalidOutcome, Function.update_apply] at hx
    split at hx
    · cases hx
    · exact h.verdict x hx
  · have hpost : r.rs.lastExecutedHeight < node.height.toNat →
        replay wl start (node.height.toNat + 1) = some (applyBlock input txs).1 :=
      fun hlast => replay_succ (hin hlast) (hpath ▸ htxs)
    refine { h with
      queued := fun entry he => h.queued entry (hqueue entry he)
      verdict := ?_
      cached := ?_ }
    · intro x hx
      simp only [withRs_rs, ingestValidation, Function.update_apply] at hx ⊢
      split at hx
      · subst x
        exact ⟨node, hget, hsmall, fun _ => by simp⟩
      · rename_i hne
        rw [if_neg hne]
        exact h.verdict x hx
    · intro x post hx
      simp only [withRs_rs, ingestValidation, Function.update_apply] at hx
      split at hx
      · subst x
        cases hx
        exact ⟨node, hget, hpost⟩
      · exact h.cached x post hx
  · cases hv

theorem Folded.execute (h : Folded wl start r) {nh : C.Hash} {node : Node C}
    (hget : r.rs.tree.get? nh = some node)
    (hnext : asI64 node.height = r.rs.lastExecutedHeight + 1)
    (hvalid : r.rs.validationResult nh = some true) (happ : applyNode nh node r = .ok r') :
    Folded wl start r' := by
  obtain ⟨node', hget', hsmall, hpost⟩ := h.verdict nh hvalid
  cases hget.symm.trans hget'
  have hheight : asI64 node.height = node.height.toNat := asI64_of_lt (by omega)
  obtain ⟨post, hcached⟩ := Option.isSome_iff_exists.mp (hpost (by omega))
  obtain ⟨node', hget', hreplay⟩ := h.cached nh post hcached
  cases hget.symm.trans hget'
  have hbottom := h.bottom
  obtain ⟨hlive, hposts⟩ := applyNode_states happ
  obtain ⟨hrs, hqueue, _⟩ := applyNode_frame happ
  have hlast : r'.rs.lastExecutedHeight = node.height.toNat := by rw [hrs, hheight]
  have htree : r'.rs.tree = r.rs.tree := by rw [hrs]
  have hverdict : r'.rs.validationResult = r.rs.validationResult := by rw [hrs]
  refine ⟨?_, ?_, ?_, ?_, ?_⟩
  · omega
  · rw [hlive, hcached, Option.getD_some, hlast]
    exact hreplay (by omega)
  · intro entry he
    rw [hqueue] at he
    obtain ⟨m, hm, hpath, hlt, hin⟩ := h.queued entry he
    exact ⟨m, by rw [htree]; exact hm, hpath, hlt, fun hl => hin (by omega)⟩
  · intro x hx
    rw [hverdict] at hx
    obtain ⟨m, hm, hlt, hp⟩ := h.verdict x hx
    refine ⟨m, by rw [htree]; exact hm, hlt, ?_⟩
    intro hl
    rw [hposts, Function.update_apply, if_neg]
    · exact hp (by omega)
    · rintro rfl
      cases hget.symm.trans hm
      omega
  · intro x post' hx
    rw [hposts, Function.update_apply] at hx
    split at hx
    · cases hx
    · obtain ⟨m, hm, hp⟩ := h.cached x post' hx
      exact ⟨m, by rw [htree]; exact hm, fun hl => hp (by omega)⟩

theorem Folded.move (hv : w.validator.reexecutes = true) (h : Folded w.workload start r)
    (hc : TreeConsistent r.rs.tree)
    (hg : ∀ x node, r.rs.tree.get? x = some node → r'.rs.tree.get? x = some node)
    (hm : Move keys arrives w r r') : Folded w.workload start r' := by
  rcases hm.ledger_cases with hs | ⟨k, req, input, out, hk, hran, rfl⟩ |
    ⟨leafHash, node, block, input, hget, hblock, _, hi, rfl⟩ | ⟨nh, node, hget, hnext, hvalid, happ⟩
  · exact h.frame hs hg
  · exact h.ingest hk hv hran
  · exact h.submit hc hget hblock hi
  · exact h.execute hget hnext hvalid happ

theorem Folded.start_protocol (hv : w.validator.reexecutes = true) :
    Folded w.workload (genesisState w.workload.manifest)
      (startProtocol w (bootReplica w n)) := by
  rw [startProtocol, enterNewView_eq]
  refine ⟨?_, ?_, ?_, ?_, ?_⟩
  · simp [bootReplica, ReplicaState.new]
  · simp [bootReplica, ReplicaState.new, replay, initState, hv]
  · simp [bootReplica]
  · simp [bootReplica, ReplicaState.new]
  · simp [bootReplica, ReplicaState.new]

/-- Every state of a re-executing node is folded, as far as its tree is
consistent. Nodes never leave the tree, so a consistent one was so all along. -/
theorem reach_folded (hinj : Function.Injective (nodeHash (C := C)))
    (hv : w.validator.reexecutes = true) (hr : Machine.Reach w n m)
    (hc : TreeConsistent m.replica.rs.tree) :
    Folded w.workload (genesisState w.workload.manifest) m.replica := by
  have hinv := reach_invariant (w := w) (n := n) (m := m) (P := fun r =>
    (∀ h node, r.rs.tree.get? h = some node → nodeHash node = h) ∧
      (TreeConsistent r.rs.tree → Folded w.workload (genesisState w.workload.manifest) r))
    ⟨?_, fun _ => Folded.start_protocol hv⟩ ?_ hr
  · exact hinv.2 hc
  · rw [startProtocol, enterNewView_eq]
    simp [bootReplica, ReplicaState.new]
  · rintro keys r r' ⟨ht, hf⟩ hm
    obtain ⟨ht', hg⟩ := hm.tree_grow hinj ht
    refine ⟨ht', ?_⟩
    intro hc'
    have hc := hc'.of_grow hg
    exact (hf hc).move hv hc hg hm

end

/-- The ledger state of a re-executing node is the fold of the workload's blocks
up to the last executed height, whatever order messages, timers and validation
answers came in. -/
theorem live_state_replays (hinj : Function.Injective (nodeHash (C := C))) {w : Wiring C}
    (hv : w.validator.reexecutes = true) {n : Nat} {m : Machine C} (hr : Machine.Reach w n m)
    (hc : TreeConsistent m.replica.rs.tree) :
    -1 ≤ m.replica.rs.lastExecutedHeight ∧
      replay w.workload (initState w.validator w.workload.manifest)
        (m.replica.rs.lastExecutedHeight + 1).toNat = some m.replica.liveState := by
  have hf := reach_folded hinj hv hr hc
  refine ⟨hf.bottom, ?_⟩
  rw [initState, if_pos hv]
  exact hf.live

theorem solo_replays : ∃ m : Machine Solo.crypto,
    Machine.Reach (Solo.cluster.wiring 0) 1 m ∧ m.replica.rs.lastExecutedHeight = 1 ∧
      m.replica.liveState.getBalance 1 = 6 ∧ TreeConsistent m.replica.rs.tree ∧
      -1 ≤ m.replica.rs.lastExecutedHeight ∧
      replay Solo.cluster.workload
        (initState (Solo.cluster.validator 0) Solo.cluster.workload.manifest)
        (m.replica.rs.lastExecutedHeight + 1).toNat = some m.replica.liveState := by
  have hplay : (System.play Solo.cluster Solo.cluster.Authentic Solo.schedule
      (System.start Solo.cluster)).any (fun s =>
        decide ((s 0).replica.rs.lastExecutedHeight = 1 ∧
          (s 0).replica.liveState.getBalance 1 = 6 ∧
          TreeConsistent (s 0).replica.rs.tree)) = true := by
    decide +kernel
  obtain ⟨s, hr, hc⟩ := play_exists hplay
  obtain ⟨hlast, hbalance, hcons⟩ := of_decide_eq_true hc
  exact ⟨s 0, hr.machine 0, hlast, hbalance, hcons,
    live_state_replays tabled_nodes_apart rfl (hr.machine 0)
      hcons⟩

end ZkStf
