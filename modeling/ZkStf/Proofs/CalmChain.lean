import ZkStf.Proofs.CalmRuns
import ZkStf.Proofs.Committed

namespace ZkStf
open ZkStf.Basis
open ZkStf.Basis.Ballots
open Relation (ReflTransGen)
variable {C : Crypto}

/-- The command of the block at a height. -/
def Workload.cmd (wl : Workload C) (height : UInt64) : C.Hash :=
  match wl.block height with
  | .ok block => block.cmd
  | .error _ => C.zero

/-- The blocks of a workload as one chain of nodes from genesis. -/
def Workload.course (wl : Workload C) : Nat → Node C
  | 0 => ⟨genesisHash C, wl.cmd 0, 0⟩
  | k + 1 => ⟨nodeHash (wl.course k), wl.cmd (UInt64.ofNat (k + 1)), UInt64.ofNat (k + 1)⟩

theorem cmd_of_block {wl : Workload C} {height : UInt64} {block : BlockRef C}
    (h : wl.block height = .ok block) : wl.cmd height = block.cmd := by
  unfold Workload.cmd
  rw [h]

theorem course_parent (wl : Workload C) (k : Nat) :
    (wl.course (k + 1)).parent = nodeHash (wl.course k) := rfl

theorem course_height (wl : Workload C) (k : Nat) : (wl.course k).height = UInt64.ofNat k := by
  cases k <;> rfl

theorem course_cmd (wl : Workload C) (k : Nat) : (wl.course k).cmd = wl.cmd (UInt64.ofNat k) := by
  cases k <;> rfl

theorem course_unique {wl : Workload C} {node : Node C} {k : Nat}
    (hparent : node.parent = (wl.course k).parent) (hcmd : node.cmd = wl.cmd node.height)
    (hheight : node.height = UInt64.ofNat k) : node = wl.course k := by
  rw [hheight, ← course_cmd] at hcmd
  rw [← course_height wl] at hheight
  obtain ⟨p, c, h⟩ := node
  cases hnode : wl.course k with
  | mk p' c' h' =>
    rw [hnode] at hparent hcmd hheight
    cases hparent
    cases hcmd
    cases hheight
    rfl

theorem course_toNat (wl : Workload C) {k : Nat} (hk : k < 2 ^ 64) :
    (wl.course k).height.toNat = k := by
  rw [course_height]
  exact UInt64.toNat_ofNat_of_lt' hk

theorem course_line (wl : Workload C) {k : Nat} (hk : k < 2 ^ 64) : Line wl.course k where
  root := rfl
  link _ _ := rfl
  height i hi := course_toNat wl (by omega)

namespace Cluster
variable (K : Cluster C)

def numBlocks : Nat := K.workload.manifest.numBlocks.toNat

/-- The proposal of view `v` is the block of height `v - 1`, on top of the
certificate that the view before has left. -/
structure OnCourse (v : Nat) (leaf : Node C) (high : Option (QC C)) : Prop where
  first : 1 ≤ v
  last : v ≤ K.numBlocks
  parent : leaf.parent = expectedParent high
  leaf : leaf = K.workload.course (v - 1)
  justify : (v = 1 ∧ high = none) ∨ ∃ q, high = some q ∧ q.view + 1 = v

/-- The leader of the view has announced the certificate. -/
def Announced (rs : Nat → Replica C) (p : Phase) (v : Nat) (qc : QC C) : Prop :=
  (rs (K.leader v)).HasSent (.phaseQc (announcedBy p) v qc (K.leader v))

end Cluster

/-- Every block that the node can read passes its validator. -/
def Vets (w : Wiring C) : Prop :=
  ∀ height block, w.workload.block height = .ok block → ∀ (req : ValidateRequest C) input out,
    req.txsPath = height → req.proofPath = height →
    runValidation w.overflowChecks w.workload req input w.validator = .ok out → out.valid = true

/-- Every node plays by the rules: none is under the adversary's control, the keys
verify what the secrets sign, and the blocks are good. -/
structure Cluster.Faultless (K : Cluster C) : Prop where
  free : K.byz = ∅
  signs : K.SignsValidly
  vets : ∀ i, K.Honest i → Vets (K.wiring i)

/-- The request names the files of a block that can be read. -/
def Readable (wl : Workload C) (req : ValidateRequest C) : Prop :=
  ∃ block, wl.block req.txsPath = .ok block ∧ req.proofPath = req.txsPath ∧
    req.txsTotal = block.info.txsTotal

/-- Where a node of a calm run stands: one block per view, in the order of the
workload, and no view left without a decision. -/
structure Course (K : Cluster C) (rs : Nat → Replica C) (r : Replica C) : Prop where
  started : 1 ≤ r.rs.view
  proposals : ∀ v leaf high sender, r.HasSent (.proposal v leaf high sender) →
    K.OnCourse v leaf high
  typed : ∀ ty v qc sender, r.HasSent (.phaseQc ty v qc sender) →
    ∃ p, ty = announcedBy p ∧ qc.msgType = msgTypeOf p ∧ qc.view = v
  reports : ∀ u justify sender, r.HasSent (.newView u justify sender) →
    ∀ q, justify = some q → q.view ≤ u
  collected : ∀ u sender q, (r.rs.viewData u).newViewMsgs.get? sender = some (some q) → q.view ≤ u
  staged : ∀ p v qc, r.rs.staged p v = some qc → K.Announced rs p v qc
  left : ∀ v, 1 ≤ v → v < r.rs.view → ∃ qc, K.Announced rs .commit v qc
  decided : ∀ h, (r.rs.decidedNodes.get? h).isSome →
    ∃ v qc, qc.nodeHash = h ∧ K.Announced rs .commit v qc
  tree : ∀ h node, r.rs.tree.get? h = some node → ∃ k < K.numBlocks, node = K.workload.course k
  fit : ∀ v, (r.rs.viewData v).voted .prepare = true → ∃ nh, r.Signed ⟨.prepare, v, nh⟩
  verdicts : ∀ h, r.rs.validationResult h ≠ some false
  queue : ∀ entry ∈ r.valReqs, Readable K.workload entry.1

/-- What a node sends in one move, with all that it has checked for it. -/
inductive Utters (w : Wiring C) (r : Replica C) : Wire C → Prop
  | newView : Utters w r (.newView r.rs.view r.rs.prepareQc w.myId)
  | proposal (newViews : List (Nat × Option (QC C))) (leaf : Node C)
      (leader : r.rs.leaderFor r.rs.view = w.myId)
      (read : newViews.Perm (r.rs.viewData (r.rs.view - 1)).newViewMsgs.entries)
      (enough : r.rs.quorum ≤ newViews.length)
      (parent : leaf.parent = expectedParent (highQc newViews))
      (height : newHeight w r.rs (highQc newViews) = .ok (some leaf.height))
      (inRange : leaf.height.toNat < w.workload.manifest.numBlocks.toNat)
      (block : ∃ b, w.workload.block leaf.height = .ok b ∧ b.cmd = leaf.cmd) :
      Utters w r (.proposal r.rs.view leaf (highQc newViews) w.myId)
  | vote (p : Phase) (nh : C.Hash) (sig : C.Sig) :
      Utters w r (.vote (msgTypeOf p) r.rs.view nh w.myId sig)
  | phaseQc (p : Phase) (qc : QC C) (type : qc.msgType = msgTypeOf p)
      (view : qc.view = r.rs.view) :
      Utters w r (.phaseQc (announcedBy p) r.rs.view qc w.myId)

section
variable {keys : Nat → Option C.Key} {arrives : Wire C → Prop} {expires : Prop} {w : Wiring C}
  {r r' : Replica C} {msg : Wire C}

theorem Move.utters (hm : Move keys arrives w r r') (h : r'.HasSent msg) :
    r.HasSent msg ∨ Utters w r msg := by
  have hcast : ∀ p nh held, held.view = r.rs.view →
      (castVote w p nh { r with rs := held }).HasSent msg → r.HasSent msg ∨ Utters w r msg := by
    intro p nh held hv hs
    rcases cast_sent hs with hs | ⟨sig, rfl⟩
    · exact Or.inl hs
    · rw [hv]
      exact Or.inr (.vote p nh sig)
  cases hm with
  | enter =>
    rcases enter_sent h with h | rfl
    · exact Or.inl h
    · exact Or.inr .newView
  | propose newViews leaf leader once read enough parent height inRange block =>
    rcases hasSent_append rfl h with h | ⟨e, he, hs⟩
    · exact Or.inl h
    · cases List.mem_singleton.mp he
      cases hs
      exact Or.inr (.proposal newViews leaf leader read enough parent height inRange block)
  | prepare leaf => exact hcast .prepare (nodeHash leaf) r.rs rfl h
  | preCommit qc => exact hcast .preCommit qc.nodeHash (holdPrepare qc r.rs) rfl h
  | commit qc => exact hcast .commit qc.nodeHash (holdLock qc r.rs) rfl h
  | certify p ord qc leader formed =>
    rcases hasSent_append rfl h with h | ⟨e, he, hs⟩
    · exact Or.inl h
    · cases List.mem_singleton.mp he
      cases hs
      obtain ⟨htype, hview, _⟩ := formQc_spec formed
      exact Or.inr (.phaseQc p qc htype hview)
  | execute decided nh node r' known path found next valid applied =>
    rcases hasSent_append (applyNode_frame applied).2.2 h with h | ⟨e, he, hs⟩
    · exact Or.inl h
    · cases List.mem_singleton.mp he
      cases hs
  | kick =>
    rcases hasSent_append rfl h with h | ⟨e, he, hs⟩
    · exact Or.inl h
    · cases List.mem_singleton.mp he
      cases hs
  | _ => exact Or.inl h

/-- A node of the tree was proposed by a peer or by the node itself. -/
theorem Move.tree_sources (hm : Move keys arrives w r r') {h : C.Hash} {node : Node C}
    (hget : r'.rs.tree.get? h = some node) : r.rs.tree.get? h = some node ∨
      (∃ v justify sender, arrives (.proposal v node justify sender)) ∨
      ∃ v high, r'.HasSent (.proposal v node high w.myId) := by
  have hsame : r'.rs.tree = r.rs.tree → r.rs.tree.get? h = some node := fun he => he ▸ hget
  cases hm with
  | stash view leaf justify sender arrived =>
    change (r.rs.tree.insert (nodeHash leaf) leaf).get? h = some node at hget
    rw [EntryMap.get?_insert] at hget
    split at hget
    · cases hget
      exact Or.inr (Or.inl ⟨view, justify, sender, arrived⟩)
    · exact Or.inl hget
  | propose newViews leaf =>
    change (r.rs.tree.insert (nodeHash leaf) leaf).get? h = some node at hget
    rw [EntryMap.get?_insert] at hget
    split at hget
    · cases hget
      exact Or.inr (Or.inr ⟨r.rs.view, highQc newViews, .broadcast _, by simp [sendProposal], rfl⟩)
    · exact Or.inl hget
  | receive ty p view qc =>
    exact Or.inl (hsame (by rw [withRs_rs, receiveQc_eq, stageQc_eq]; rfl))
  | enter => exact Or.inl (hsame (enterNewView_tree ..))
  | prepare => exact Or.inl (hsame (by rw [castVote_eq]; rfl))
  | preCommit => exact Or.inl (hsame (by rw [castVote_eq]; rfl))
  | commit => exact Or.inl (hsame (by rw [castVote_eq]; rfl))
  | certify p ord qc => exact Or.inl (hsame (by rw [certify_eq]; rfl))
  | execute decided nh node r' known path found next valid applied =>
    exact Or.inl (hsame (by rw [(applyNode_frame applied).1]))
  | _ => exact Or.inl hget

/-- A decision was announced by the leader of its view, to the node or by it. -/
theorem Move.decided_sources (hm : Move keys arrives w r r') {h : C.Hash}
    (hd : (r'.rs.decidedNodes.get? h).isSome) : (r.rs.decidedNodes.get? h).isSome ∨
      (∃ v qc, qc.nodeHash = h ∧ arrives (.phaseQc .decide v qc (r.rs.leaderFor v))) ∨
      ∃ qc, qc.nodeHash = h ∧ r.rs.staged .commit r.rs.view = some qc := by
  have hsame : r'.rs.decidedNodes = r.rs.decidedNodes → (r.rs.decidedNodes.get? h).isSome :=
    fun he => he ▸ hd
  cases hm with
  | receive ty p view qc sender arrived leader phase =>
    simp only [withRs_rs, receiveQc_eq] at hd
    split at hd
    · rename_i hnew
      rcases EntryMap.isSome_insert.mp hd with rfl | hd
      · cases hnew.1
        cases announced_of_certified phase
        exact Or.inr (Or.inl ⟨view, qc, rfl, leader ▸ arrived⟩)
      · exact Or.inl hd
    · exact Or.inl hd
  | decide qc staged =>
    rcases EntryMap.isSome_insert.mp hd with rfl | hd
    · exact Or.inr (Or.inr ⟨qc, rfl, staged⟩)
    · exact Or.inl hd
  | enter => exact Or.inl (hsame (enterNewView_decidedNodes ..))
  | prepare => exact Or.inl (hsame (by rw [castVote_eq]; rfl))
  | preCommit => exact Or.inl (hsame (by rw [castVote_eq]; rfl))
  | commit => exact Or.inl (hsame (by rw [castVote_eq]; rfl))
  | certify p ord qc => exact Or.inl (hsame (by rw [certify_eq]; rfl))
  | execute decided nh node r' known path found next valid applied =>
    exact Or.inl (hsame (by rw [(applyNode_frame applied).1]))
  | _ => exact Or.inl hd

theorem Move.queue_readable (hm : Move keys arrives w r r')
    (hq : ∀ entry ∈ r.valReqs, Readable w.workload entry.1) :
    ∀ entry ∈ r'.valReqs, Readable w.workload entry.1 := by
  intro entry he
  rcases hm.ledger_cases with hs | ⟨k, req, input, out, _, _, rfl⟩ |
    ⟨leafHash, node, block, input, _, hread, _, _, rfl⟩ | ⟨nh, node, _, _, _, happ⟩
  · rw [hs.queue] at he
    exact hq entry he
  · exact hq entry (List.mem_of_mem_eraseIdx he)
  · rcases List.mem_append.mp he with he | he
    · exact hq entry he
    · cases List.mem_singleton.mp he
      obtain ⟨_, htxs, hproof⟩ := block_spec hread
      exact ⟨block, by rw [htxs]; exact hread, hproof.trans htxs.symm, rfl⟩
  · rw [(applyNode_frame happ).2.1] at he
    exact hq entry he

/-- A validator that every block passes never says no. -/
theorem Move.verdict_passes (hm : Move keys arrives w r r') (hv : Vets w)
    (hq : ∀ entry ∈ r.valReqs, Readable w.workload entry.1)
    (h : ∀ h, r.rs.validationResult h ≠ some false) :
    ∀ h, r'.rs.validationResult h ≠ some false := by
  intro x
  rcases hm.ledger_cases with hs | ⟨k, req, input, out, hk, hran, rfl⟩ |
    ⟨leafHash, node, block, input, _, _, _, _, rfl⟩ | ⟨nh, node, _, _, _, happ⟩
  · rw [hs.verdicts]
    exact h x
  · obtain ⟨block, hread, hproof, _⟩ := hq _ (List.mem_of_getElem? hk)
    simp only [withRs_rs, ingestValidation]
    rw [Function.update_apply]
    split
    · rw [hv _ block hread req input out rfl hproof hran]
      simp
    · exact h x
  · exact h x
  · rw [(applyNode_frame happ).1]
    exact h x

end

section
variable {K : Cluster C} {rs rs' : Nat → Replica C} {i : Nat} {r r' : Replica C}

theorem leader_honest (hfree : K.byz = ∅) (hi : K.Honest i) (v : Nat) : K.Honest (K.leader v) := by
  have hpos : 0 < K.n := Nat.zero_lt_of_lt hi.1
  refine ⟨?_, by simp [hfree]⟩
  unfold Cluster.leader
  split
  · exact hpos
  · exact Nat.mod_lt _ hpos

/-- The proposals sent fix what can be prepared in a view. -/
theorem prepared_on_course (hfree : K.byz = ∅) (hc : Candid K rs)
    (hp : ∀ j, K.Honest j → ∀ v leaf high sender,
      (rs j).HasSent (.proposal v leaf high sender) → K.OnCourse v leaf high)
    (hi : K.Honest i) {u : Nat} {nh : C.Hash} (hs : (rs i).Signed ⟨.prepare, u, nh⟩) :
    1 ≤ u ∧ u ≤ K.numBlocks ∧ nh = nodeHash (K.workload.course (u - 1)) := by
  have hlead := leader_honest hfree hi u
  obtain ⟨leaf, high, rfl, hprop⟩ := (hc.minutes i hi).prepared u nh hs
  have hon := hp _ hlead _ _ _ _ (hprop hlead)
  exact ⟨hon.first, hon.last, by rw [hon.leaf]⟩

theorem certified_on_course (hfree : K.byz = ∅) (hc : Candid K rs)
    (hp : ∀ j, K.Honest j → ∀ v leaf high sender,
      (rs j).HasSent (.proposal v leaf high sender) → K.OnCourse v leaf high)
    (hi : K.Honest i) {qc : QC C} (hq : K.Certifies (votesOf rs) qc) :
    1 ≤ qc.view ∧ qc.view ≤ K.numBlocks ∧
      qc.nodeHash = nodeHash (K.workload.course (qc.view - 1)) := by
  have hint : Intersecting K.Honest K.Quorum := Cluster.intersecting hi (by simp [hfree])
  obtain ⟨x, hx, hvote⟩ := (hc.sane.prepared hint hq).voter hint
  exact prepared_on_course hfree hc hp hx hvote

theorem announced_certifies (hfree : K.byz = ∅) (hc : Candid K rs)
    (h : ∀ j, K.Honest j → Course K rs (rs j)) (hi : K.Honest i) {p : Phase} {v : Nat} {qc : QC C}
    (ha : K.Announced rs p v qc) :
    qc.msgType = msgTypeOf p ∧ qc.view = v ∧ K.Certifies (votesOf rs) qc := by
  have hlead := leader_honest hfree hi v
  obtain ⟨p', hty, htype, hview⟩ := (h _ hlead).typed _ _ _ _ ha
  obtain rfl := announcedBy_inj hty
  obtain ⟨e, he, hmsg⟩ := ha
  exact ⟨htype, hview, (hc.sane.holds _ hlead).sent e he _ hmsg qc (by simp [Wire.certs])⟩

theorem announced_on_course (hfree : K.byz = ∅) (hc : Candid K rs)
    (h : ∀ j, K.Honest j → Course K rs (rs j)) (hi : K.Honest i) {p : Phase} {v : Nat} {qc : QC C}
    (ha : K.Announced rs p v qc) :
    1 ≤ v ∧ v ≤ K.numBlocks ∧ qc.nodeHash = nodeHash (K.workload.course (v - 1)) := by
  obtain ⟨_, rfl, hcert⟩ := announced_certifies hfree hc h hi ha
  exact certified_on_course hfree hc (fun j hj => (h j hj).proposals) hi hcert

/-- In a view that is not the first, the leader extends the certificate of the
view before: the PRE-COMMIT votes behind that view's decision were reported to it. -/
theorem proposal_justified (hfree : K.byz = ∅) (hc : Candid K rs)
    (h : ∀ j, K.Honest j → Course K rs (rs j)) (hi : K.Honest i)
    {newViews : List (Nat × Option (QC C))} {leaf : Node C}
    (read : newViews.Perm ((rs i).rs.viewData ((rs i).rs.view - 1)).newViewMsgs.entries)
    (enough : (rs i).rs.quorum ≤ newViews.length)
    (parent : leaf.parent = expectedParent (highQc newViews)) :
    ((rs i).rs.view = 1 ∧ highQc newViews = none) ∨
      ∃ q, highQc newViews = some q ∧ q.view + 1 = (rs i).rs.view ∧
        q.nodeHash = nodeHash (K.workload.course (q.view - 1)) ∧ 1 ≤ q.view ∧
        q.view ≤ K.numBlocks := by
  have hp := fun j hj => (h j hj).proposals
  have hstart := (h i hi).started
  have hheard : ∀ q, highQc newViews = some q → q.view ≤ (rs i).rs.view - 1 ∧
      1 ≤ q.view ∧ q.view ≤ K.numBlocks ∧
      q.nodeHash = nodeHash (K.workload.course (q.view - 1)) := by
    intro q hq
    obtain ⟨sender, hmem⟩ := highQc_mem hq
    have hget := EntryMap.get?_eq_some.mpr (read.mem_iff.mp hmem)
    have hgood := ((hc.sane.holds i hi).views _).newViews sender q hget
    exact ⟨(h i hi).collected _ sender q hget, certified_on_course hfree hc hp hi hgood⟩
  by_cases hfirst : (rs i).rs.view = 1
  · left
    refine ⟨hfirst, ?_⟩
    cases hq : highQc newViews with
    | none => rfl
    | some q =>
      obtain ⟨hle, hone, _⟩ := hheard q hq
      omega
  · right
    have hint : Intersecting K.Honest K.Quorum := Cluster.intersecting hi (by simp [hfree])
    obtain ⟨qc, hsent⟩ := (h i hi).left ((rs i).rs.view - 1) (by omega) (by omega)
    obtain ⟨htype, hview, hcert⟩ := announced_certifies hfree hc h hi hsent
    have hcommit := certified_of_certifies (p := .commit) htype hcert
    obtain ⟨x, hx, hvote⟩ := hcommit.voter hint
    have hpre := hc.sane.orderly.commit x qc.view qc.nodeHash hx hvote
    have hground := (hc.minutes i hi).grounds (hc.sane.holds i hi) rfl read enough parent
    obtain ⟨q, hq, hle⟩ := hground.covers hint hpre (by omega)
    obtain ⟨hle', hone, hlast, hnode⟩ := hheard q hq
    exact ⟨q, hq, by omega, hnode, hone, hlast⟩

theorem ofNat_succ (k : Nat) : UInt64.ofNat k + 1 = UInt64.ofNat (k + 1) := by
  simp

/-- The leaf that a leader builds is the next block of the workload. -/
theorem proposal_on_course (hinj : Function.Injective (nodeHash (C := C))) (hfree : K.byz = ∅)
    (hc : Candid K rs) (h : ∀ j, K.Honest j → Course K rs (rs j)) (hi : K.Honest i)
    {newViews : List (Nat × Option (QC C))} {leaf : Node C}
    (read : newViews.Perm ((rs i).rs.viewData ((rs i).rs.view - 1)).newViewMsgs.entries)
    (enough : (rs i).rs.quorum ≤ newViews.length)
    (parent : leaf.parent = expectedParent (highQc newViews))
    (height : newHeight (K.wiring i) (rs i).rs (highQc newViews) = .ok (some leaf.height))
    (inRange : leaf.height.toNat < K.workload.manifest.numBlocks.toNat)
    (block : ∃ b, K.workload.block leaf.height = .ok b ∧ b.cmd = leaf.cmd) :
    K.OnCourse (rs i).rs.view leaf (highQc newViews) := by
  obtain ⟨b, hblock, hcmd⟩ := block
  have hleafCmd : leaf.cmd = K.workload.cmd leaf.height := by rw [cmd_of_block hblock, hcmd]
  rcases proposal_justified hfree hc h hi read enough parent with
    ⟨hview, hnone⟩ | ⟨q, hq, hview, hnode, hone, hlast⟩
  · rw [hnone] at parent height ⊢
    have hzero : leaf.height = UInt64.ofNat 0 := by
      simp only [newHeight, Except.ok.injEq, Option.some.injEq] at height
      exact height.symm
    have hleaf : leaf = K.workload.course 0 := course_unique parent hleafCmd hzero
    rw [hzero] at inRange
    refine ⟨hview.ge, ?_, parent, ?_, Or.inl ⟨hview, rfl⟩⟩
    · rw [hview]
      exact inRange
    · rw [hview]
      exact hleaf
  · rw [hq] at parent height ⊢
    simp only [newHeight] at height
    split at height
    · cases height
    rename_i parentNode hget
    -- the node to extend is the one the certificate is for
    have hextends : parentNode = K.workload.course (q.view - 1) :=
      hinj (((hc.sane.holds i hi).tree _ _ hget).trans hnode)
    have hsmall : K.numBlocks < 2 ^ 32 := K.workload.manifest.numBlocks.toNat_lt
    have hnat : parentNode.height.toNat = q.view - 1 := by
      rw [hextends]
      exact course_toNat _ (by omega)
    have hnext : leaf.height = UInt64.ofNat q.view := by
      rw [addOneHeight, if_pos (by omega)] at height
      simp only [Except.map, Except.ok.injEq, Option.some.injEq] at height
      rw [← height, hextends, course_height, ofNat_succ, Nat.sub_add_cancel hone]
    have hup : leaf.parent = (K.workload.course q.view).parent := by
      rw [parent, ← Nat.sub_add_cancel hone, course_parent, ← hnode]
      rfl
    have hleaf : leaf = K.workload.course q.view := course_unique hup hleafCmd hnext
    rw [hnext, UInt64.toNat_ofNat_of_lt' (by change _ < 2 ^ 64; omega)] at inRange
    refine ⟨by omega, ?_, parent, ?_, Or.inr ⟨q, rfl, hview⟩⟩
    · rw [← hview]
      exact inRange
    · rw [← hview]
      exact hleaf

theorem Course.mono (h : Course K rs r) (hl : Later rs rs') : Course K rs' r :=
  { h with
    staged := fun p v qc hs => (hl _).2 _ (h.staged p v qc hs)
    left := fun v hone hlt => (h.left v hone hlt).imp fun _ ha => (hl _).2 _ ha
    decided := fun x hx => by
      obtain ⟨v, qc, hn, ha⟩ := h.decided x hx
      exact ⟨v, qc, hn, (hl _).2 _ ha⟩ }

/-- The proposal of its view is one that a node of a calm run votes for. -/
theorem course_fit (hfree : K.byz = ∅) (hc : Candid K rs)
    (h : ∀ j, K.Honest j → Course K rs (rs j)) (hi : K.Honest i) : ¬ Unfit (rs i) := by
  rintro ⟨leaf, high, hprop, hbad⟩
  have hlead := leader_honest hfree hi (rs i).rs.view
  have hp := fun j hj => (h j hj).proposals
  have hon := hp _ hlead _ _ _ _ ((hc.minutes i hi).stored _ leaf high hprop hlead)
  rcases hbad with hbad | hbad
  · exact (h i hi).verdicts _ hbad
  have hsafe : safeNode leaf high (rs i).rs.lockedQc (rs i).rs.tree = true := by
    apply safeNode_of_lock
    intro lk hlk
    obtain ⟨_, hgood⟩ := (hc.sane.holds i hi).lockedQc lk hlk
    obtain ⟨hone, _, hnode⟩ := certified_on_course hfree hc hp hi hgood
    have hle := (hc.sane.voter i hi).lockedQc lk hlk
    rw [hnode, hon.leaf]
    rcases Nat.lt_trichotomy (lk.view + 1) (rs i).rs.view with hlt | heq | hgt
    · rcases hon.justify with ⟨hfirst, _⟩ | ⟨q, hq, hview⟩
      · omega
      · exact Or.inr (Or.inr ⟨q, hq, by omega⟩)
    · right; left
      rw [← heq, Nat.add_sub_cancel]
      conv_lhs => rw [← Nat.sub_add_cancel hone]
      exact course_parent _ _
    · left
      rw [show lk.view = (rs i).rs.view by omega]
  rw [hbad] at hsafe
  cases hsafe

/-- A message in the post was sent by the node that it names. -/
theorem Candid.sender (hfree : K.byz = ∅) (hc : Candid K rs) {msg : Wire C} {sender : Nat}
    (hp : K.Posted rs i msg) (hs : msg.sender = some sender) :
    K.Honest sender ∧ (rs sender).HasSent msg := by
  obtain ⟨hlt, hsent⟩ := (hc.posted hp).2 sender hs
  have hhonest : K.Honest sender := ⟨hlt, by simp [hfree]⟩
  exact ⟨hhonest, hsent hhonest⟩

/-- One deed of a calm run keeps its node on course. -/
theorem Course.deed (hinj : Function.Injective (nodeHash (C := C))) (hK : K.Faultless)
    (hc : Candid K rs)
    (h : ∀ j, K.Honest j → Course K rs (rs j)) (hi : K.Honest i)
    (hd : Deed K.peerKeys (K.Posted rs i) False (K.wiring i) (rs i) r') (hr : rs' i = r')
    (hl : Later rs rs') : Course K rs' r' := by
  have hm := hd.move
  have hown := (h i hi).mono hl
  have hleader : ∀ v, (rs i).rs.leaderFor v = K.leader v := (hc.sane.holds i hi).leader
  have hheld : ∀ q, (rs i).rs.prepareQc = some q → q.view ≤ (rs i).rs.view :=
    (hc.sane.voter i hi).prepareQc
  have hproposals : ∀ v leaf high sender, r'.HasSent (.proposal v leaf high sender) →
      K.OnCourse v leaf high := by
    intro v leaf high sender hs
    rcases hm.utters hs with hs | hs
    · exact (h i hi).proposals v leaf high sender hs
    · cases hs with
      | proposal newViews leaf leader read enough parent height inRange block =>
        exact proposal_on_course hinj hK.free hc h hi read enough parent height inRange block
  have hannounced : ∀ p v qc, K.Posted rs i (.phaseQc (announcedBy p) v qc
      ((rs i).rs.leaderFor v)) → K.Announced rs' p v qc := by
    intro p v qc hp
    rw [hleader] at hp
    exact (hl _).2 _ (hc.sender hK.free hp rfl).2
  refine ⟨hown.started.trans hm.view_mono, hproposals, ?_, ?_, ?_, ?_, ?_, ?_, ?_, ?_, ?_, ?_⟩
  · intro ty v qc sender hs
    rcases hm.utters hs with hs | hs
    · exact hown.typed ty v qc sender hs
    · cases hs with
      | phaseQc p qc type view => exact ⟨p, rfl, type, view⟩
  · intro u justify sender hs
    rcases hm.utters hs with hs | hs
    · exact hown.reports u justify sender hs
    · cases hs with
      | newView => exact hheld
  · intro u sender q hget
    rcases hm.collected_cases hget with hget | ha | ⟨rfl, rfl, hq, _⟩
    · exact hown.collected u sender q hget
    · obtain ⟨hj, hsent⟩ := hc.sender hK.free ha rfl
      exact (h sender hj).reports u _ sender hsent q rfl
    · exact hheld q hq.symm
  · intro p v qc hs
    rcases hm.staged_cases hs with hs | ha | ⟨hme, hsent⟩
    · exact hown.staged p v qc hs
    · exact hannounced p v qc ha
    · rw [hleader] at hme
      rw [Cluster.Announced, hme]
      change (rs' i).HasSent _
      rw [hr]
      exact hsent
  · intro v hone hlt
    by_cases hview : r'.rs.view = (rs i).rs.view
    · rw [hview] at hlt
      exact hown.left v hone hlt
    · cases hd.left hview with
      | expired allowed => cases allowed
      | decided qc seen staged known pace =>
        obtain hsame | ⟨timeout, rfl⟩ := hm.view_cases
        · exact absurd hsame hview
        rw [enterNewView_view] at hlt
        by_cases hcur : v = (rs i).rs.view
        · subst v
          exact ⟨qc, hown.staged .commit _ qc staged⟩
        · exact hown.left v hone (by omega)
  · intro x hx
    rcases hm.decided_sources hx with hx | ⟨v, qc, hn, ha⟩ | ⟨qc, hn, hs⟩
    · exact hown.decided x hx
    · exact ⟨v, qc, hn, hannounced .commit v qc ha⟩
    · exact ⟨_, qc, hn, hown.staged .commit _ qc hs⟩
  · intro x node hget
    have hcourse : ∀ v high, K.OnCourse v node high →
        ∃ k < K.numBlocks, node = K.workload.course k := by
      intro v high hon
      have hfirst := hon.first
      have hlast := hon.last
      exact ⟨v - 1, by omega, hon.leaf⟩
    rcases hm.tree_sources hget with hget | ⟨v, justify, sender, ha⟩ | ⟨v, high, hsent⟩
    · exact hown.tree x node hget
    · obtain ⟨hj, hsent⟩ := hc.sender hK.free ha rfl
      exact hcourse v justify ((h sender hj).proposals v node justify sender hsent)
    · exact hcourse v high (hproposals v node high _ hsent)
  · intro v hv
    rcases hd.dropped v hv with hv | hv | ⟨_, hunfit⟩
    · obtain ⟨nh, hs⟩ := hown.fit v hv
      exact ⟨nh, hm.signed_grow hs⟩
    · exact hv
    · exact absurd hunfit (course_fit hK.free hc h hi)
  · exact hm.verdict_passes (hK.vets i hi) hown.queue hown.verdicts
  · exact hm.queue_readable hown.queue

theorem Course.start
    (hr : rs i = startProtocol (K.wiring i) (bootReplica (K.wiring i) K.n)) :
    Course K rs (rs i) := by
  have hsent : ∀ msg, (rs i).HasSent msg → msg = .newView 0 none i := by
    intro msg hs
    rw [hr] at hs
    rcases enter_sent hs with ⟨e, he, _⟩ | hs
    · cases he
    · exact hs
  have hview : (rs i).rs.view = 1 := by rw [hr, startProtocol, enterNewView_view]
  refine ⟨hview.ge, ?_, ?_, ?_, ?_, ?_, ?_, ?_, ?_, ?_, ?_, ?_⟩
  · intro v leaf high sender hs
    cases hsent _ hs
  · intro ty v qc sender hs
    cases hsent _ hs
  · intro u justify sender hs q hq
    cases hsent _ hs
    cases hq
  · intro u sender q hget
    rw [hr] at hget
    rcases enter_collected hget with hget | ⟨_, _, hq⟩
    · cases hget
    · cases hq
  · intro p v qc hs
    rw [hr, startProtocol, enterNewView_eq] at hs
    cases hs
  · intro v hone hlt
    omega
  · intro x hx
    rw [hr, startProtocol, enterNewView_decidedNodes] at hx
    cases hx
  · intro x node hget
    rw [hr, startProtocol, enterNewView_tree] at hget
    cases hget
  · intro v hv
    rw [hr, startProtocol, enter_field ViewData.voted v (fun _ _ => rfl)] at hv
    cases hv
  · intro x
    rw [hr, startProtocol, enterNewView_validationResult]
    simp [bootReplica, ReplicaState.new]
  · intro entry he
    rw [hr, startProtocol, enterNewView_eq] at he
    cases he

/-- Induction over the calm runs of a cluster without faults, deed by deed: its
nodes stay on course. -/
theorem course_invariant {P : (Nat → Replica C) → Prop}
    (hinj : Function.Injective (nodeHash (C := C))) (hK : K.Faultless)
    (h0 : P (fun i => startProtocol (K.wiring i) (bootReplica (K.wiring i) K.n)))
    (hs : ∀ rs i r', K.Honest i → Candid K rs → (∀ j, K.Honest j → Course K rs (rs j)) →
      Candid K (Function.update rs i r') →
      (∀ j, K.Honest j → Course K (Function.update rs i r') (Function.update rs i r' j)) →
      P rs → Deed K.peerKeys (K.Posted rs i) False (K.wiring i) (rs i) r' →
      P (Function.update rs i r'))
    {log : Nat → List (Event C)} {s : System C} (hcalm : K.Calm log s) :
    Candid K s.replicas ∧ (∀ i, K.Honest i → Course K s.replicas (s.replicas i)) ∧
      P s.replicas := by
  refine calm_invariant (P := fun rs => (∀ i, K.Honest i → Course K rs (rs i)) ∧ P rs) hK.signs
    ⟨fun _ _ => Course.start rfl, h0⟩ ?_ hcalm
  rintro rs i r' hi hc hc' ⟨h, hp⟩ hd
  have hl := hd.move.later
  have h' : ∀ j, K.Honest j →
      Course K (Function.update rs i r') (Function.update rs i r' j) := by
    intro j hj
    by_cases hji : j = i
    · subst j
      rw [Function.update_self]
      exact Course.deed hinj hK hc h hi hd (Function.update_self ..) hl
    · rw [Function.update_of_ne hji]
      exact (h j hj).mono hl
  exact ⟨h', hs rs i r' hi hc h hc' h' hp hd⟩

end
end ZkStf
