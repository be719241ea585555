import ZkStf.Proofs.ExecutionChain
import ZkStf.Proofs.LedgerFold

namespace ZkStf
open ZkStf.Basis
variable {C : Crypto}

/-- The proof system: the public values of an accepted proof are the output of
the zkVM program on some input. -/
def ProofsSound (C : Crypto) : Prop :=
  ∀ vkey proof, C.verifyProof vkey proof = true →
    ∃ state txs, guestMain C state txs = some (C.publicValues proof)

/-- Each `commit.json` names the hash of the block's own transactions. -/
def TxHashesMatch (wl : Workload C) : Prop :=
  ∀ height info txs, wl.commitJson height = some info → wl.transactions height = some txs →
    C.hexDecode info.txHash = some (hashTransactions C txs)

/-- A proof file of the workload that the verifier accepts. -/
def Accepts (wl : Workload C) (vkey : C.VKey) (height : UInt64) (proof : C.Proof) : Prop :=
  wl.proof height = some proof ∧ C.verifyProof vkey proof = true

/-- The roots of a verifying node. What it chains, queues and caches are public
values of accepted proofs, each found by the height of the node it is for. -/
structure Chained (wl : Workload C) (vkey : C.VKey) (r : Replica C) : Prop where
  root : r.rs.lastExecutedHeight = -1 ∨ ∃ (height : UInt64) (proof : C.Proof),
    r.rs.lastExecutedHeight = height.toNat ∧ Accepts wl vkey height proof ∧
    r.chainedRoot = (C.publicValues proof).postStateRoot
  queued : ∀ entry ∈ r.valReqs, ∃ node : Node C, nodeHash node = entry.1.nodeHash ∧
    entry.1.proofPath = node.height ∧ node.height.toNat < 2 ^ 32
  verdict : ∀ h, r.rs.validationResult h = some true → ∃ (node : Node C) (proof : C.Proof),
    nodeHash node = h ∧ node.height.toNat < 2 ^ 32 ∧ Accepts wl vkey node.height proof ∧
    r.rs.preRootByNode h = some (C.publicValues proof).preStateRoot ∧
    (r.rs.lastExecutedHeight < node.height.toNat →
      r.rs.postRootByNode h = some (C.publicValues proof).postStateRoot)

section
variable {keys : Nat → Option C.Key} {arrives : Wire C → Prop} {w : Wiring C}
  {wl : Workload C} {vkey : C.VKey} {r r' : Replica C}

theorem Chained.frame (h : Chained wl vkey r) (hs : SameLedger r r') : Chained wl vkey r' := by
  refine ⟨?_, ?_, ?_⟩
  · rw [hs.last, hs.root]
    exact h.root
  · rw [hs.queue]
    exact h.queued
  · rw [hs.verdicts, hs.preRoots, hs.postRoots, hs.last]
    exact h.verdict

theorem Chained.submit (h : Chained wl vkey r)
    (ht : ∀ x node, r.rs.tree.get? x = some node → nodeHash node = x)
    (hget : r.rs.tree.get? leafHash = some node) (hblock : wl.block node.height = .ok block) :
    Chained wl vkey (submitValidation leafHash node block input r) := by
  refine { h with queued := ?_ }
  intro entry he
  rcases List.mem_append.mp he with he | he
  · exact h.queued entry he
  · cases List.mem_singleton.mp he
    obtain ⟨hsmall, _, hpath⟩ := block_spec hblock
    exact ⟨node, ht _ _ hget, hpath, hsmall⟩

theorem Chained.ingest (h : Chained wl vkey r) {k : Nat} {req : ValidateRequest C} {input : State}
    (hk : r.valReqs[k]? = some (req, input)) {checks : Bool} {out : ValidateOutcome C}
    (hran : runValidation checks wl req input (.verify vkey) = .ok out) :
    Chained wl vkey ({ r with valReqs := r.valReqs.eraseIdx k }.withRs (ingestValidation out)) := by
  obtain ⟨node, hn, hpath, hsmall⟩ := h.queued _ (List.mem_of_getElem? hk)
  have hqueue : ∀ entry ∈ r.valReqs.eraseIdx k, ∃ node : Node C,
      nodeHash node = entry.1.nodeHash ∧ entry.1.proofPath = node.height ∧
      node.height.toNat < 2 ^ 32 :=
    fun entry he => h.queued entry (List.mem_of_mem_eraseIdx he)
  rcases runValidation_cases hran with rfl | ⟨_, hv, _⟩ | ⟨_, proof, hv, hproof, hverify, rfl⟩
  · refine { h with
      queued := hqueue
      verdict := ?_ }
    intro x hx
    simp only [withRs_rs, ingestValidation, invalidOutcome, Function.update_apply] at hx
    split at hx
    · cases hx
    · exact h.verdict x hx
  · cases hv
  · cases hv
    refine { h with
      queued := hqueue
      verdict := ?_ }
    intro x hx
    simp only [withRs_rs, ingestValidation, Function.update_apply] at hx ⊢
    split at hx
    · subst x
      refine ⟨node, proof, hn, hsmall, ⟨?_, hverify⟩, by simp, by simp⟩
      rw [← hpath]
      exact hproof
    · rename_i hne
      rw [if_neg hne, if_neg hne]
      exact h.verdict x hx

/-- Executing a proven node swaps in the post-state root of its proof. -/
theorem Chained.execute (hinj : Function.Injective (nodeHash (C := C)))
    (h : Chained wl vkey r) (ht : ∀ x node, r.rs.tree.get? x = some node → nodeHash node = x)
    {nh : C.Hash} {node : Node C} (hget : r.rs.tree.get? nh = some node)
    (hnext : asI64 node.height = r.rs.lastExecutedHeight + 1)
    (hvalid : r.rs.validationResult nh = some true) (happ : applyNode nh node r = .ok r') :
    Chained wl vkey r' := by
  obtain ⟨node', proof, hn, hsmall, hacc, hpre, hpost⟩ := h.verdict nh hvalid
  cases hinj (hn.trans (ht nh node hget).symm)
  have hheight : asI64 node.height = node.height.toNat := asI64_of_lt (by omega)
  obtain ⟨hroot, hposts, _⟩ := applyNode_roots happ hpre
  obtain ⟨hrs, hqueue, _⟩ := applyNode_frame happ
  have hlast : r'.rs.lastExecutedHeight = node.height.toNat := by rw [hrs, hheight]
  have hpres : r'.rs.preRootByNode = r.rs.preRootByNode := by rw [hrs]
  have hverdict : r'.rs.validationResult = r.rs.validationResult := by rw [hrs]
  refine ⟨?_, ?_, ?_⟩
  · refine Or.inr ⟨node.height, proof, hlast, hacc, ?_⟩
    rw [hroot, hpost (by omega)]
    rfl
  · rw [hqueue]
    exact h.queued
  · intro x hx
    rw [hverdict] at hx
    obtain ⟨m, proof', hm, hlt, hacc', hpre', hpost'⟩ := h.verdict x hx
    refine ⟨m, proof', hm, hlt, hacc', by rw [hpres]; exact hpre', ?_⟩
    intro hl
    rw [hposts, Function.update_apply, if_neg]
    · exact hpost' (by omega)
    · rintro rfl
      cases hinj (hm.trans hn.symm)
      omega

theorem Chained.move (hinj : Function.Injective (nodeHash (C := C)))
    (hv : w.validator = .verify vkey) (h : Chained w.workload vkey r)
    (ht : ∀ x node, r.rs.tree.get? x = some node → nodeHash node = x)
    (hm : Move keys arrives w r r') : Chained w.workload vkey r' := by
  rcases hm.ledger_cases with hs | ⟨k, req, input, out, hk, hran, rfl⟩ |
    ⟨leafHash, node, block, input, hget, hblock, _, hi, rfl⟩ | ⟨nh, node, hget, hnext, hvalid, happ⟩
  · exact h.frame hs
  · rw [hv] at hran
    exact h.ingest hk hran
  · exact h.submit ht hget hblock
  · exact h.execute hinj ht hget hnext hvalid happ

theorem Chained.start {n : Nat} :
    Chained w.workload vkey (startProtocol w (bootReplica w n)) := by
  rw [startProtocol, enterNewView_eq]
  refine ⟨Or.inl rfl, ?_, ?_⟩
  · simp [bootReplica]
  · simp [bootReplica, ReplicaState.new]

theorem reach_chained (hinj : Function.Injective (nodeHash (C := C)))
    (hv : w.validator = .verify vkey) (hr : Machine.Reach w n m) :
    Chained w.workload vkey m.replica := by
  have hinv := reach_invariant (w := w) (n := n) (m := m) (P := fun r =>
    (∀ h node, r.rs.tree.get? h = some node → nodeHash node = h) ∧ Chained w.workload vkey r)
    ?_ ?_ hr
  · exact hinv.2
  · refine ⟨?_, .start⟩
    rw [startProtocol, enterNewView_tree]
    simp [bootReplica, ReplicaState.new]
  · rintro keys r r' ⟨ht, hf⟩ hm
    exact ⟨(hm.tree_grow hinj ht).1, hf.move hinj hv ht hm⟩

end

/-- A verifying and a re-executing node that executed the same heights agree on
the state exactly when the proof file of the last of them ends in the state the
transactions files lead to. Nothing a verifier checks makes it so. -/
theorem chained_root_agrees (hinj : Function.Injective (nodeHash (C := C))) {wv wr : Wiring C}
    {vkey : C.VKey} (hw : wv.workload = wr.workload) (hv : wv.validator = .verify vkey)
    (hx : wr.validator.reexecutes = true) {nv nr : Nat} {mv mr : Machine C}
    (hmv : Machine.Reach wv nv mv) (hmr : Machine.Reach wr nr mr)
    (hc : TreeConsistent mr.replica.rs.tree) {k : UInt64}
    (hkv : mv.replica.rs.lastExecutedHeight = k.toNat)
    (hkr : mr.replica.rs.lastExecutedHeight = k.toNat) :
    computeStateRoot C mr.replica.liveState = some mv.replica.chainedRoot ↔
      ∃ proof state, wr.workload.proof k = some proof ∧
        replay wr.workload (genesisState wr.workload.manifest) (k.toNat + 1) = some state ∧
        computeStateRoot C state = some (C.publicValues proof).postStateRoot := by
  have hlive := (reach_folded hinj hx hmr hc).live
  rw [hkr] at hlive
  rcases (reach_chained hinj hv hmv).root with hnone | ⟨height, proof, hh, hacc, hroot⟩
  · omega
  · rw [hw] at hacc
    have hheight : height = k := by
      apply UInt64.toNat_inj.mp
      omega
    subst height
    rw [hroot]
    constructor
    · intro h
      exact ⟨proof, _, hacc.1, hlive, h⟩
    · rintro ⟨proof', state, hp, hs, h⟩
      cases hacc.1.symm.trans hp
      cases hlive.symm.trans hs
      exact h

/-! Two blocks that each move 3 from account 0 to account 1, under two sets of proofs.
A proof is what the guest was run on. -/
namespace TwoProofs

def txs : List Tx := [⟨0, 1, 3⟩]

abbrev base : Crypto := tabled 0 [] (fun _ => some (.inr (txs.flatMap txBytes)))

abbrev crypto : Crypto :=
  { base with
    Proof := State × List Tx
    verifyProof := fun _ proof => (guestMain base proof.1 proof.2).isSome
    publicValues := fun proof => (guestMain base proof.1 proof.2).getD
      ⟨base.zero, base.zero, base.zero⟩ }

theorem collision_free : Function.Injective crypto.sha256 :=
  (tabled_injective : Function.Injective base.sha256)

theorem bytes_split : Splits crypto.bytes :=
  (tabled_splits : Splits base.bytes)

theorem sound : ProofsSound crypto := by
  intro _ proof hverify
  obtain ⟨commit, hcommit⟩ := Option.isSome_iff_exists.mp hverify
  refine ⟨proof.1, proof.2, ?_⟩
  change guestMain base proof.1 proof.2 = some ((guestMain base proof.1 proof.2).getD _)
  rw [hcommit]
  rfl

/-- The ledger before the block of a height. -/
def ledger (height : Nat) : State :=
  (List.replicate height txs).foldl (fun state txs => (applyBlock state txs).1)
    (genesisState ⟨1, 10, 2⟩)

/-- The guest is run on the ledger and the block, or on an empty ledger and no
transactions. -/
def workload (own : Bool) : Workload crypto :=
  { steadyWorkload crypto 2 txs with
    proof := fun height => some (if own then (ledger height.toNat, txs) else (.new, [])) }

theorem tx_hashes_match (own : Bool) : TxHashesMatch (workload own) := by
  have hhash : some (.inr (txs.flatMap txBytes)) = some (hashTransactions crypto txs) := by
    decide +kernel
  intro height info txs' _ htxs
  cases htxs
  exact hhash

def cluster (own : Bool) (validator : Validator crypto) : Cluster crypto where
  n := 1
  small := Solo.cluster.small
  byz := ∅
  key i := (i : Nat)
  secret i := (i : Nat)
  workload := workload own
  validator _ := validator
  timeoutBaseMs := 1000
  overflowChecks := true

def firstBlock : List (Nat × Option (Event crypto)) := [(0, none), (0, some (.validated 0))]

def bothBlocks : List (Nat × Option (Event crypto)) :=
  firstBlock ++ [(0, some (.timer 0)), (0, some (.validated 0))]

/-- The system of a lone node after a schedule. -/
def final (own : Bool) (validator : Validator crypto)
    (schedule : List (Nat × Option (Event crypto))) : Option (System crypto) :=
  System.play (cluster own validator) (cluster own validator).Authentic schedule
    (System.start (cluster own validator))

theorem final_reach (h : final own validator schedule = some s) :
    Machine.Reach ((cluster own validator).wiring 0) 1 (s 0) :=
  (play_reach .start h).machine 0

end TwoProofs

open TwoProofs in
theorem own_proof_agrees : ∃ mv mr : Machine TwoProofs.crypto,
    Machine.Reach ((cluster true (.verify ())).wiring 0) 1 mv ∧
      Machine.Reach ((cluster true (.reexecute 0)).wiring 0) 1 mr ∧
      computeStateRoot TwoProofs.crypto mr.replica.liveState = some mv.replica.chainedRoot ∧
      (computeStateRoot TwoProofs.crypto mr.replica.liveState = some mv.replica.chainedRoot ↔
        ∃ proof state, (workload true).proof 1 = some proof ∧
          replay (workload true) (genesisState (workload true).manifest) 2 = some state ∧
          computeStateRoot TwoProofs.crypto state =
            some (TwoProofs.crypto.publicValues proof).postStateRoot) := by
  have hplay : (final true (.verify ()) bothBlocks).any (fun sv =>
      (final true (.reexecute 0) bothBlocks).any (fun sr =>
        decide ((sv 0).replica.rs.lastExecutedHeight = 1 ∧
          (sr 0).replica.rs.lastExecutedHeight = 1 ∧ TreeConsistent (sr 0).replica.rs.tree ∧
          computeStateRoot TwoProofs.crypto (sr 0).replica.liveState =
            some (sv 0).replica.chainedRoot))) = true := by
    decide +kernel
  obtain ⟨sv, hsv, hrest⟩ := (Option.any_eq_true _ _).mp hplay
  obtain ⟨sr, hsr, hc⟩ := (Option.any_eq_true _ _).mp hrest
  obtain ⟨hlastv, hlastr, hcons, hroot⟩ := of_decide_eq_true hc
  have hinj : Function.Injective (nodeHash (C := TwoProofs.crypto)) :=
    nodeHash_injective collision_free bytes_split
  have hv : ((cluster true (.verify ())).wiring 0).validator = .verify () := rfl
  have hx : ((cluster true (.reexecute 0)).wiring 0).validator.reexecutes = true := rfl
  have hw : ((cluster true (.verify ())).wiring 0).workload =
      ((cluster true (.reexecute 0)).wiring 0).workload := rfl
  exact ⟨sv 0, sr 0, final_reach hsv, final_reach hsr, hroot,
    chained_root_agrees hinj hw hv hx (final_reach hsv) (final_reach hsr) hcons (k := 1) hlastv
      hlastr⟩

open TwoProofs in
/-- The verifier accepts a sound proof that is not about the block, and chains
its root. -/
theorem foreign_proof_diverges : ∃ mv mr : Machine TwoProofs.crypto,
    ProofsSound TwoProofs.crypto ∧ TxHashesMatch (workload false) ∧
      Function.Injective TwoProofs.crypto.sha256 ∧
      Machine.Reach ((cluster false (.verify ())).wiring 0) 1 mv ∧
      Machine.Reach ((cluster false (.reexecute 0)).wiring 0) 1 mr ∧
      mv.replica.executed = mr.replica.executed ∧
      mv.replica.rs.lastExecutedHeight = 0 ∧ mr.replica.rs.lastExecutedHeight = 0 ∧
      TreeConsistent mr.replica.rs.tree ∧
      computeStateRoot TwoProofs.crypto mr.replica.liveState ≠ some mv.replica.chainedRoot := by
  have hplay : (final false (.verify ()) firstBlock).any (fun sv =>
      (final false (.reexecute 0) firstBlock).any (fun sr =>
        decide ((sv 0).replica.executed = (sr 0).replica.executed ∧
          (sv 0).replica.rs.lastExecutedHeight = 0 ∧ (sr 0).replica.rs.lastExecutedHeight = 0 ∧
          TreeConsistent (sr 0).replica.rs.tree ∧
          computeStateRoot TwoProofs.crypto (sr 0).replica.liveState ≠
            some (sv 0).replica.chainedRoot))) = true := by
    decide +kernel
  obtain ⟨sv, hsv, hrest⟩ := (Option.any_eq_true _ _).mp hplay
  obtain ⟨sr, hsr, hc⟩ := (Option.any_eq_true _ _).mp hrest
  exact ⟨sv 0, sr 0, sound, tx_hashes_match false, collision_free,
    final_reach hsv, final_reach hsr, of_decide_eq_true hc⟩

end ZkStf
