import ZkStf.Proofs.Agreement

namespace ZkStf
open ZkStf.Basis
open ZkStf.Basis.Ballots
open Relation (ReflTransGen)
variable {C : Crypto}

section
variable {keys : Nat → Option C.Key} {arrives : Wire C → Prop} {w : Wiring C}
  {r r' : Replica C}

/-- A node enters the tree with a proposal, received or the node's own. -/
theorem Move.tree_cases (hm : Move keys arrives w r r') :
    r'.rs.tree = r.rs.tree ∨ ∃ node : Node C,
      r'.rs.tree = r.rs.tree.insert (nodeHash node) node ∧
      ((∃ view justify sender, arrives (.proposal view node justify sender)) ∨
        ∃ high, node.parent = expectedParent high ∧
          newHeight w r.rs high = .ok (some node.height) ∧
          ∀ qc, high = some qc →
            ∃ v sender, (r.rs.viewData v).newViewMsgs.get? sender = some (some qc)) := by
  cases hm with
  | stash view node justify sender arrived leader sigs parent =>
    exact Or.inr ⟨node, rfl, Or.inl ⟨view, justify, sender, arrived⟩⟩
  | propose newViews leaf leader once read enough parent height inRange block =>
    refine Or.inr ⟨leaf, rfl, Or.inr ⟨highQc newViews, parent, height, ?_⟩⟩
    intro qc hq
    obtain ⟨sender, hmem⟩ := highQc_mem hq
    exact ⟨_, sender, EntryMap.get?_eq_some.mpr (read.mem_iff.mp hmem)⟩
  | receive ty p view qc => left; simp only [withRs_rs, receiveQc_eq, stageQc_eq]; rfl
  | enter timeout => left; rw [enterNewView_eq]; rfl
  | prepare => left; rw [castVote_eq]; rfl
  | preCommit => left; rw [castVote_eq]; rfl
  | commit => left; rw [castVote_eq]; rfl
  | certify p ord qc => left; simp only [emit_rs, withRs_rs, stageQc_eq]; rfl
  | execute decided nh node r' known path found next valid applied =>
    left
    rw [(applyNode_frame applied).1]
  | _ => exact Or.inl rfl

/-- A request is queued for a node of the tree whose command is its block's. -/
theorem Move.queue_cases (hm : Move keys arrives w r r') {entry : ValidateRequest C × State}
    (he : entry ∈ r'.valReqs) : entry ∈ r.valReqs ∨ ∃ node block,
      r.rs.tree.get? entry.1.nodeHash = some node ∧ w.workload.block node.height = .ok block ∧
      block.cmd = node.cmd := by
  cases hm with
  | ingest k req input out queued ran => exact Or.inl (List.mem_of_mem_eraseIdx he)
  | kick leafHash node block input fresh idle found read cmd start =>
    rcases List.mem_append.mp he with he | he
    · exact Or.inl he
    · cases List.mem_singleton.mp he
      exact Or.inr ⟨node, block, found, read, cmd⟩
  | enter timeout => rw [enterNewView_eq] at he; exact Or.inl he
  | prepare => rw [castVote_eq] at he; exact Or.inl he
  | preCommit => rw [castVote_eq] at he; exact Or.inl he
  | commit => rw [castVote_eq] at he; exact Or.inl he
  | execute decided nh node r' known path found next valid applied =>
    rw [(applyNode_frame applied).2.1] at he
    exact Or.inl he
  | _ => exact Or.inl he

/-- What a validation that ends comes to: nothing to go by, the state after the block,
or the roots of an accepted proof. -/
theorem runValidation_cases {checks : Bool} {wl : Workload C} {req : ValidateRequest C}
    {input : State} {v : Validator C} {out : ValidateOutcome C}
    (h : runValidation checks wl req input v = .ok out) : out = invalidOutcome req ∨
      (∃ txs, v.reexecutes = true ∧ wl.transactions req.txsPath = some txs ∧
        out = ⟨req.nodeHash, req.height, true, some (applyBlock input txs).1, none, none⟩) ∨
      ∃ vkey proof, v = .verify vkey ∧ wl.proof req.proofPath = some proof ∧
        C.verifyProof vkey proof = true ∧
        out = ⟨req.nodeHash, req.height, true, none, some (C.publicValues proof).postStateRoot,
          some (C.publicValues proof).preStateRoot⟩ := by
  cases v with
  | reexecute delay =>
    simp only [runValidation] at h
    split at h
    · cases h; exact Or.inl rfl
    rename_i txs htxs
    split at h
    · cases h
    · cases h; exact Or.inr (Or.inl ⟨txs, rfl, htxs, rfl⟩)
  | verify vkey =>
    simp only [runValidation] at h
    split at h
    · cases h; exact Or.inl rfl
    rename_i proof hproof
    split at h
    · rename_i hverify
      cases h; exact Or.inr (Or.inr ⟨vkey, proof, rfl, hproof, hverify, rfl⟩)
    · cases h; exact Or.inl rfl

theorem runValidation_nodeHash {checks : Bool} {wl : Workload C} {req : ValidateRequest C}
    {input : State} {v : Validator C} {out : ValidateOutcome C}
    (h : runValidation checks wl req input v = .ok out) : out.nodeHash = req.nodeHash := by
  rcases runValidation_cases h with rfl | ⟨_, _, _, rfl⟩ | ⟨_, _, _, _, _, rfl⟩ <;> rfl

/-- A verdict is the answer to a queued request. -/
theorem Move.verdict_cases (hm : Move keys arrives w r r') {h : C.Hash} {b : Bool}
    (hv : r'.rs.validationResult h = some b) :
    r.rs.validationResult h = some b ∨ ∃ entry ∈ r.valReqs, entry.1.nodeHash = h := by
  cases hm with
  | ingest k req input out queued ran =>
    simp only [withRs_rs, ingestValidation, runValidation_nodeHash ran] at hv
    rw [Function.update_apply] at hv
    split at hv
    · subst h
      exact Or.inr ⟨(req, input), List.mem_of_getElem? queued, rfl⟩
    · exact Or.inl hv
  | receive ty p view qc => simp only [withRs_rs, receiveQc_eq, stageQc_eq] at hv; exact Or.inl hv
  | enter timeout => rw [enterNewView_eq] at hv; exact Or.inl hv
  | prepare => rw [castVote_eq] at hv; exact Or.inl hv
  | preCommit => rw [castVote_eq] at hv; exact Or.inl hv
  | commit => rw [castVote_eq] at hv; exact Or.inl hv
  | certify p ord qc => simp only [emit_rs, withRs_rs, stageQc_eq] at hv; exact Or.inl hv
  | execute decided nh node r' known path found next valid applied =>
    rw [(applyNode_frame applied).1] at hv
    exact Or.inl hv
  | _ => exact Or.inl hv

end

/-- A block of the workload is found by its own number, which is a `u32`. -/
theorem block_spec {wl : Workload C} {height : UInt64} {b : BlockRef C}
    (h : wl.block height = .ok b) :
    height.toNat < 2 ^ 32 ∧ b.txsPath = height ∧ b.proofPath = height := by
  unfold Workload.block blockAt at h
  split at h
  · cases h
  · split at h
    · cases h
    · rename_i info _ hnum
      have hlt := info.blockNumber.toNat_lt
      split at h
      · cases h
      · cases h
        exact ⟨by omega, rfl, rfl⟩

/-- The hash is of a node fit for `fit` that carries its block's command. -/
def Vetted (wl : Workload C) (fit : Node C → Prop) (h : C.Hash) : Prop :=
  ∃ node block, nodeHash node = h ∧ fit node ∧ wl.block node.height = .ok block ∧
    block.cmd = node.cmd

/-- What a verdict, and a prepare vote given on it, say about the node. -/
structure Checked (wl : Workload C) (fit : Node C → Prop) (good : QC C → Prop)
    (r : Replica C) : Prop where
  tree : ∀ h node, r.rs.tree.get? h = some node → fit node
  queued : ∀ entry ∈ r.valReqs, Vetted wl fit entry.1.nodeHash
  verdict : ∀ h, r.rs.validationResult h = some true → Vetted wl fit h
  prepared : ∀ v h verdict, .sign ⟨.prepare, v, h⟩ verdict ∈ r.effects →
    verdict = some true ∧ Vetted wl fit h ∧ ∃ leaf high, nodeHash leaf = h ∧
      leaf.parent = expectedParent high ∧ ∀ qc, high = some qc → good qc

section
variable {keys : Nat → Option C.Key} {arrives : Wire C → Prop} {w : Wiring C} {n : Nat}
  {r r' : Replica C} {fit : Node C → Prop} {good : QC C → Prop}
  {vote : Phase → Nat → Nat → C.Hash → C.Sig → Prop}

theorem Checked.move (h : Checked w.workload fit good r) (hh : Holds n good vote r)
    (ha : ∀ view node justify sender, arrives (.proposal view node justify sender) → fit node)
    (hl : ∀ node high, node.parent = expectedParent high →
      newHeight w r.rs high = .ok (some node.height) → (∀ qc, high = some qc → good qc) → fit node)
    (hm : Move keys arrives w r r') : Checked w.workload fit good r' := by
  refine ⟨?_, ?_, ?_, ?_⟩
  · intro x node hget
    rcases hm.tree_cases with he | ⟨node', he, hnew⟩
    · exact h.tree x node (he ▸ hget)
    · rw [he, EntryMap.get?_insert] at hget
      split at hget
      · cases hget
        rcases hnew with ⟨view, justify, sender, harr⟩ | ⟨high, hparent, hheight, hsrc⟩
        · exact ha view node justify sender harr
        · refine hl node high hparent hheight ?_
          intro qc hq
          obtain ⟨v, sender, hnv⟩ := hsrc qc hq
          exact (hh.views v).newViews sender qc hnv
      · exact h.tree x node hget
  · intro entry he
    rcases hm.queue_cases he with he | ⟨node, block, hget, hblock, hcmd⟩
    · exact h.queued entry he
    · exact ⟨node, block, hh.tree _ _ hget, h.tree _ _ hget, hblock, hcmd⟩
  · intro x hx
    rcases hm.verdict_cases hx with hx | ⟨entry, he, rfl⟩
    · exact h.verdict x hx
    · exact h.queued entry he
  · intro v x verdict hs
    rcases hm.casts with hq | ⟨p, nh, held, hc, _, rfl⟩
    · exact h.prepared v x verdict (hq.signs _ _ hs)
    · rcases castVote_signs.mp hs with hs | ⟨hd, rfl⟩
      · exact h.prepared v x verdict hs
      · injection hd with ht hv hn
        cases msgTypeOf_inj (q := .prepare) ht.symm
        cases hc with
        | prepare leaf high proposal valid safe =>
          subst hn
          obtain ⟨hparent, hgood⟩ := (hh.views _).proposal leaf high proposal
          exact ⟨valid, h.verdict _ valid, leaf, high, rfl, hparent, hgood⟩

theorem Checked.start : Checked w.workload fit good (startProtocol w (bootReplica w n)) := by
  rw [startProtocol, enterNewView_eq]
  refine ⟨?_, ?_, ?_, ?_⟩
  · simp [bootReplica, ReplicaState.new]
  · simp [bootReplica]
  · simp [bootReplica, ReplicaState.new]
  · intro v x verdict hs
    dsimp only at hs
    split at hs <;> simp [bootReplica] at hs

theorem Checked.mono {good' : QC C → Prop} {wl : Workload C} (h : Checked wl fit good r)
    (hg : ∀ qc, good qc → good' qc) : Checked wl fit good' r := by
  refine { h with prepared := ?_ }
  intro v x verdict hs
  obtain ⟨hv, hvet, leaf, high, hn, hp, hq⟩ := h.prepared v x verdict hs
  exact ⟨hv, hvet, leaf, high, hn, hp, fun qc he => hg qc (hq qc he)⟩

end

/-- A hash some certificate is for. -/
def Cluster.Backed (K : Cluster C) (rs : Nat → Replica C) (h : C.Hash) : Prop :=
  ∃ qc, K.Certifies (votesOf rs) qc ∧ qc.nodeHash = h

/-- Every honest node has checked what it vouches for. -/
def Cluster.Diligent (K : Cluster C) (fit : Node C → Prop) (rs : Nat → Replica C) : Prop :=
  ∀ i, K.Honest i → Checked K.workload fit (K.Certifies (votesOf rs)) (rs i)

section
variable {K : Cluster C} {rs : Nat → Replica C} {fit : Node C → Prop}

theorem diligent_start (K : Cluster C) :
    K.Diligent fit (fun i => startProtocol (K.wiring i) (bootReplica (K.wiring i) K.n)) :=
  fun i _ => Checked.start (w := K.wiring i)

theorem diligent_move {arrives : Wire C → Prop} {i : Nat} {r' : Replica C}
    (hd : K.Diligent fit rs) (hs : Sane K rs) (hi : K.Honest i)
    (ha : ∀ view node justify sender, arrives (.proposal view node justify sender) → fit node)
    (hl : ∀ node high, node.parent = expectedParent high →
      newHeight (K.wiring i) (rs i).rs high = .ok (some node.height) →
      (∀ qc, high = some qc → K.Certifies (votesOf rs) qc) → fit node)
    (hm : Move K.peerKeys arrives (K.wiring i) (rs i) r') :
    K.Diligent fit (Function.update rs i r') := by
  have hgrow := votesOf_grow hm
  intro j hj
  by_cases hji : j = i
  · subst j
    have hnext := (hd i hi).move (w := K.wiring i) (hs.holds i hi) ha hl hm
    rw [Function.update_self]
    exact hnext.mono (fun qc hq => hq.mono hgrow)
  · rw [Function.update_of_ne hji]
    exact (hd j hj).mono (fun qc hq => hq.mono hgrow)

/-- Genesis is the hash of no node, so a branch ends there. -/
theorem extends_genesis (hgen : ∀ node : Node C, nodeHash node ≠ genesisHash C)
    (he : Extends (genesisHash C) b) : b = genesisHash C := by
  rcases he.cases_head with he | ⟨_, ⟨g, hg, _⟩, _⟩
  · exact he.symm
  · exact absurd hg (hgen g)

/-- Certificates reach back to genesis: a certified node was vetted, and its
parent is certified too. -/
theorem Sane.backed (hs : Sane K rs) (hq : Intersecting K.Honest K.Quorum)
    (hinj : Function.Injective (nodeHash (C := C)))
    (hc : K.Diligent fit rs) {h : C.Hash} (hb : K.Backed rs h) :
    ∃ node block, nodeHash node = h ∧ fit node ∧
      K.workload.block node.height = .ok block ∧ block.cmd = node.cmd ∧
      (node.parent = genesisHash C ∨ K.Backed rs node.parent) := by
  obtain ⟨qc, hqc, rfl⟩ := hb
  obtain ⟨j, hj, verdict, hsign⟩ := (hs.prepared hq hqc).voter hq
  obtain ⟨_, ⟨node, block, hn, hfit, hblock, hcmd⟩, leaf, high, hleaf, hparent, hgood⟩ :=
    (hc j hj).prepared _ _ verdict hsign
  obtain rfl := hinj (hleaf.trans hn.symm)
  refine ⟨leaf, block, hn, hfit, hblock, hcmd, ?_⟩
  cases high with
  | none => exact Or.inl hparent
  | some q => exact Or.inr ⟨q, hgood q rfl, hparent.symm⟩

end
end ZkStf
