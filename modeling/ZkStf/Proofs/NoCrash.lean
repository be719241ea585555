import ZkStf.Proofs.Kickoff
import ZkStf.Proofs.ProofChain

namespace ZkStf
open ZkStf.Basis
open ZkStf.Basis.Ballots (Phase)
open Relation (ReflTransGen TransGen)
variable {C : Crypto}

/-- No node is its own ancestor, whatever nodes there are. -/
def Acyclic (C : Crypto) : Prop := ∀ h : C.Hash, ¬ TransGen ParentOf h h

/-- The accepted proofs of consecutive heights of a verifying node fit together. -/
def RootsChain (w : Wiring C) : Prop :=
  ∀ vkey, w.validator = .verify vkey → ∀ (k k' : UInt64) (proof proof' : C.Proof),
    k'.toNat = k.toNat + 1 → Accepts w.workload vkey k proof →
    Accepts w.workload vkey k' proof' →
    (C.publicValues proof').preStateRoot = (C.publicValues proof).postStateRoot

/-- The workload has a block for every node of the tree. -/
def Blocks (w : Wiring C) (r : Replica C) : Prop :=
  ∀ h node, r.rs.tree.get? h = some node → ∃ block, w.workload.block node.height = .ok block

/-- The facts about a node that keep it from panicking. -/
structure Sound (w : Wiring C) (r : Replica C) : Prop where
  requests : Requests w r
  occupied : Occupied r
  unrooted : w.validator.reexecutes = true → ∀ h, r.rs.preRootByNode h = none
  chained : ∀ vkey, w.validator = .verify vkey → Chained w.workload vkey r

section
variable {keys : Nat → Option C.Key} {arrives : Wire C → Prop} {w : Wiring C} {n : Nat}
  {r r' : Replica C} {ord : Order}

theorem runValidation_preRoot {checks : Bool} {wl : Workload C} {req : ValidateRequest C}
    {input : State} {v : Validator C} {out : ValidateOutcome C} (hv : v.reexecutes = true)
    (h : runValidation checks wl req input v = .ok out) : out.preRoot = none := by
  rcases runValidation_cases h with rfl | ⟨_, _, _, rfl⟩ | ⟨_, _, rfl, _⟩
  · rfl
  · rfl
  · cases hv

theorem Sound.move (hinj : Function.Injective (nodeHash (C := C))) (h : Sound w r)
    (hm : Move keys arrives w r r') : Sound w r' := by
  refine ⟨h.requests.move hinj hm, h.occupied.move hm, ?_, ?_⟩
  · intro hv x
    have hnone := h.unrooted hv x
    rcases hm.ledger_cases with hs | ⟨k, req, input, out, _, hran, rfl⟩ |
      ⟨leafHash, node, block, input, _, _, _, _, rfl⟩ | ⟨nh, node, _, _, _, happ⟩
    · rw [hs.preRoots]
      exact hnone
    · simp only [withRs_rs, ingestValidation, runValidation_preRoot hv hran]
      exact hnone
    · exact hnone
    · rw [(applyNode_frame happ).1]
      exact hnone
  · intro vkey hv
    exact (h.chained vkey hv).move hinj hv h.requests.hashes hm

theorem Sound.moves (hinj : Function.Injective (nodeHash (C := C))) (h : Sound w r)
    (hm : Moves keys arrives w r r') : Sound w r' :=
  moves_invariant (fun _ _ h hm => h.move hinj hm) hm h

theorem Sound.chores (hinj : Function.Injective (nodeHash (C := C))) (h : Sound w r)
    (hc : Chores w r r') : Sound w r' := by
  have hm : Moves (fun _ => none) (fun _ => True) w r r' := chores_moves hc
  exact h.moves hinj hm

theorem kick_progress (hb : Blocks w r) (leafHash : C.Hash) :
    ∃ r', maybeKickValidation w leafHash r = .ok r' := by
  unfold maybeKickValidation
  split
  · exact ⟨r, rfl⟩
  split
  · exact ⟨r, rfl⟩
  split
  · exact ⟨r, rfl⟩
  rename_i node hnode
  obtain ⟨block, hblock⟩ := hb leafHash node hnode
  rw [hblock]
  dsimp only
  split
  · exact ⟨r, rfl⟩
  split
  · exact ⟨r, rfl⟩
  · exact ⟨_, rfl⟩

theorem Blocks.chores (hb : Blocks w r) (hc : Chores w r r') : Blocks w r' := by
  unfold Blocks
  rw [(chores_backstage hc).tree]
  exact hb

theorem kick_leaves_progress (hb : Blocks w r) (hashes : List C.Hash) :
    ∃ r', kickLeaves w hashes r = .ok r' := by
  induction hashes generalizing r with
  | nil => exact ⟨r, rfl⟩
  | cons nh rest ih =>
    unfold kickLeaves
    split
    · exact ⟨r, rfl⟩
    · obtain ⟨mid, hmid⟩ := kick_progress hb nh
      rw [hmid]
      exact ih (hb.chores (kick_chores hmid))

/-- The walk ends: every node it passes is a new one, and the tree has only so
many. -/
theorem walk_progress (hacyc : Acyclic C) {tree : EntryMap C.Hash (Node C)}
    (ht : ∀ h node, tree.get? h = some node → nodeHash node = h) (last : Int) (fuel : Nat)
    (cur : C.Hash) (chain : List C.Hash) (hnodup : chain.Nodup) (hsub : chain ⊆ tree.keys)
    (hanc : ∀ x ∈ chain, TransGen ParentOf x cur) (hfuel : fuel + chain.length = tree.size + 1) :
    ∃ out, walkBack tree last fuel cur chain = some out := by
  induction fuel generalizing cur chain with
  | zero =>
    have hlen := (List.subperm_of_subset hnodup hsub).length_le
    simp only [EntryMap.keys, List.length_map] at hlen
    simp only [EntryMap.size] at hfuel
    omega
  | succ fuel ih =>
    unfold walkBack
    split
    · exact ⟨chain, rfl⟩
    rename_i node hnode
    split
    · exact ⟨chain, rfl⟩
    split
    · exact ⟨chain ++ [cur], rfl⟩
    have hlink : ParentOf cur node.parent := ⟨node, ht cur node hnode, rfl⟩
    have hnew : cur ∉ chain := fun hmem => hacyc cur (hanc cur hmem)
    apply ih
    · exact hnodup.append (List.nodup_singleton cur) (by simpa using hnew)
    · intro x hx
      rcases List.mem_append.mp hx with hx | hx
      · exact hsub hx
      · cases List.mem_singleton.mp hx
        exact EntryMap.mem_keys.mpr (by rw [hnode]; rfl)
    · intro x hx
      rcases List.mem_append.mp hx with hx | hx
      · exact (hanc x hx).tail hlink
      · cases List.mem_singleton.mp hx
        exact .single hlink
    · rw [List.length_append, List.length_singleton]
      omega

/-- The next node to execute fits the root chained so far. -/
theorem apply_progress (hinj : Function.Injective (nodeHash (C := C))) (hc : RootsChain w)
    (hs : Sound w r) {nh : C.Hash} {node : Node C} (hget : r.rs.tree.get? nh = some node)
    (hnext : asI64 node.height = r.rs.lastExecutedHeight + 1)
    (hvalid : r.rs.validationResult nh = some true) : ∃ r', applyNode nh node r = .ok r' := by
  unfold applyNode
  cases hv : w.validator with
  | reexecute delay =>
    rw [hs.unrooted (by rw [hv]; rfl) nh]
    exact ⟨_, rfl⟩
  | verify vkey =>
    have hchain := hs.chained vkey hv
    obtain ⟨node', proof, hn, hsmall, hacc, hpre, _⟩ := hchain.verdict nh hvalid
    cases hinj (hn.trans (hs.requests.hashes nh node hget).symm)
    have hheight : asI64 node.height = node.height.toNat := asI64_of_lt (by omega)
    rw [hpre]
    dsimp only
    split
    · rename_i hbreak
      have hpos : 0 < node.height.toNat := UInt64.lt_iff_toNat_lt.mp hbreak.1
      rcases hchain.root with hnone | ⟨height, proof', hlast, hacc', hroot⟩
      · omega
      · refine absurd ?_ hbreak.2
        rw [hroot]
        exact hc vkey hv height node.height proof' proof (by omega) hacc' hacc
    · exact ⟨_, rfl⟩

/-- The walk passes nodes of the tree only. -/
theorem walk_found {tree : EntryMap C.Hash (Node C)} {last : Int} {fuel : Nat} {cur : C.Hash}
    {chain out : List C.Hash} (h : walkBack tree last fuel cur chain = some out)
    (hc : ∀ x ∈ chain, (tree.get? x).isSome) : ∀ x ∈ out, (tree.get? x).isSome := by
  induction fuel generalizing cur chain with
  | zero => cases h
  | succ fuel ih =>
    unfold walkBack at h
    split at h
    · cases h; exact hc
    rename_i node hnode
    have hpush : ∀ x ∈ chain ++ [cur], (tree.get? x).isSome := by
      intro x hx
      rcases List.mem_append.mp hx with hx | hx
      · exact hc x hx
      · cases List.mem_singleton.mp hx
        rw [hnode]
        rfl
    split at h
    · cases h; exact hc
    split at h
    · cases h; exact hpush
    · exact ih h hpush

theorem execute_chain_progress (hinj : Function.Injective (nodeHash (C := C)))
    (hc : RootsChain w) (hs : Sound w r) (hb : Blocks w r) {decided : C.Hash}
    (hd : (r.rs.decidedNodes.get? decided).isSome) {chain : List C.Hash}
    (hl : ∀ x ∈ chain, ReflTransGen (TreeLink r.rs.tree) decided x)
    (hf : ∀ x ∈ chain, (r.rs.tree.get? x).isSome) : ∃ r', executeChain w chain r = .ok r' := by
  induction chain generalizing r with
  | nil => exact ⟨r, rfl⟩
  | cons nh rest ih =>
    obtain ⟨node, hnode⟩ := Option.isSome_iff_exists.mp (hf nh (by simp))
    unfold executeChain
    rw [hnode]
    dsimp only
    split
    · exact ⟨r, rfl⟩
    rename_i hnext
    split
    · exact ⟨r, rfl⟩
    · exact kick_progress hb nh
    · rename_i hvalid
      have hnext : asI64 node.height = r.rs.lastExecutedHeight + 1 := by simpa using hnext
      obtain ⟨mid, hmid⟩ := apply_progress hinj hc hs hnode hnext hvalid
      have hchore : Chore w r mid :=
        .execute decided nh node mid hd (hl nh (by simp)) hnode hnext hvalid hmid
      have hback := hchore.backstage
      rw [hmid]
      apply ih (hs.chores hinj (.single hchore)) (hb.chores (.single hchore))
      · rw [hback.decidedNodes]
        exact hd
      · rw [hback.tree]
        exact fun x hx => hl x (by simp [hx])
      · rw [hback.tree]
        exact fun x hx => hf x (by simp [hx])

theorem try_execute_progress (hinj : Function.Injective (nodeHash (C := C))) (hacyc : Acyclic C)
    (hc : RootsChain w) (hs : Sound w r) (hb : Blocks w r) (decided : C.Hash)
    (hd : (r.rs.decidedNodes.get? decided).isSome) :
    ∃ r', tryExecuteChain w decided r = .ok r' := by
  obtain ⟨chain, hwalk⟩ := walk_progress hacyc hs.requests.hashes r.rs.lastExecutedHeight
    (r.rs.tree.size + 1) decided [] List.nodup_nil (List.nil_subset _) (by simp) rfl
  unfold tryExecuteChain
  rw [hwalk]
  apply execute_chain_progress hinj hc hs hb hd
  · intro x hx
    exact walk_linked hwalk (by simp) .refl x (List.mem_reverse.mp hx)
  · intro x hx
    exact walk_found hwalk (by simp) x (List.mem_reverse.mp hx)

theorem execute_decided_progress (hinj : Function.Injective (nodeHash (C := C)))
    (hacyc : Acyclic C) (hc : RootsChain w) (hs : Sound w r) (hb : Blocks w r)
    {hashes : List C.Hash} (hd : ∀ x ∈ hashes, (r.rs.decidedNodes.get? x).isSome) :
    ∃ r', executeDecided w hashes r = .ok r' := by
  induction hashes generalizing r with
  | nil => exact ⟨r, rfl⟩
  | cons nh rest ih =>
    obtain ⟨mid, hmid⟩ := try_execute_progress hinj hacyc hc hs hb nh (hd nh (by simp))
    have hchores := try_execute_chores hmid (hd nh (by simp))
    unfold executeDecided
    rw [hmid]
    apply ih (hs.chores hinj hchores) (hb.chores hchores)
    rw [(chores_backstage hchores).decidedNodes]
    exact fun x hx => hd x (by simp [hx])

/-- Heights of known blocks are far from the end of their type. -/
theorem newHeight_progress (hb : Blocks w r) (high : Option (QC C)) :
    ∃ height, newHeight w r.rs high = .ok height := by
  unfold newHeight
  split
  · exact ⟨_, rfl⟩
  · split
    · exact ⟨_, rfl⟩
    · rename_i parentNode hparent
      obtain ⟨block, hblock⟩ := hb _ parentNode hparent
      have hsmall := (block_spec hblock).1
      unfold addOneHeight
      rw [if_pos (by omega)]
      exact ⟨_, rfl⟩

theorem Blocks.insert (hb : Blocks w r) {leaf : Node C} {block : BlockRef C}
    (hblock : w.workload.block leaf.height = .ok block)
    (ht : r'.rs.tree = r.rs.tree.insert (nodeHash leaf) leaf) : Blocks w r' := by
  intro h node hget
  rw [ht, EntryMap.get?_insert] at hget
  split at hget
  · cases hget
    exact ⟨block, hblock⟩
  · exact hb h node hget

/-- The workload has a block exactly for the heights its manifest counts. -/
def WellFormed (wl : Workload C) : Prop :=
  ∀ height, (∃ block, wl.block height = .ok block) ↔ height.toNat < wl.manifest.numBlocks.toNat

theorem leader_prepare_progress (hw : WellFormed w.workload) (hb : Blocks w r) :
    ∃ r', leaderPrepare w ord r = .ok r' := by
  unfold leaderPrepare
  dsimp only
  split
  · exact ⟨r, rfl⟩
  split
  · exact ⟨r, rfl⟩
  split
  · exact ⟨r, rfl⟩
  obtain ⟨height, hheight⟩ := newHeight_progress hb
    (highQc (ord.list .newViewMsgs (r.rs.vd (r.rs.view - 1)).newViewMsgs.entries))
  rw [hheight]
  cases height with
  | none => exact ⟨r, rfl⟩
  | some height =>
    dsimp only
    split
    · exact ⟨r, rfl⟩
    rename_i hrange
    obtain ⟨block, hblock⟩ := (hw height).mpr (by omega)
    rw [hblock]
    apply kick_progress
    exact hb.insert hblock rfl

theorem replica_prepare_progress : ∃ r', replicaPrepare w r = .ok r' := by
  unfold replicaPrepare
  dsimp only
  repeat' split
  all_goals exact ⟨_, rfl⟩

theorem leader_qc_progress (p : Phase) : ∃ r', leaderQc p w ord r = .ok r' := by
  unfold leaderQc
  dsimp only
  repeat' split
  all_goals exact ⟨_, rfl⟩

theorem replica_vote_progress (p next : Phase) (hold : QC C → ReplicaState C → ReplicaState C) :
    ∃ r', replicaVote p next hold w r = .ok r' := by
  unfold replicaVote
  dsimp only
  repeat' split
  all_goals exact ⟨_, rfl⟩

theorem replica_decide_progress (hinj : Function.Injective (nodeHash (C := C)))
    (hacyc : Acyclic C) (hc : RootsChain w) (hs : Sound w r) (hb : Blocks w r)
    (hview : r.rs.view + 1 < 2 ^ 64) : ∃ r', replicaDecide w r = .ok r' := by
  unfold replicaDecide
  dsimp only
  split
  · exact ⟨r, rfl⟩
  split
  · exact ⟨r, rfl⟩
  rename_i qc hqc
  have hmove : Move (fun _ => none) (fun _ => True) w r _ := .decide qc hqc
  obtain ⟨mid, hmid⟩ := try_execute_progress hinj hacyc hc (hs.move hinj hmove) hb qc.nodeHash
    (by simp)
  rw [hmid]
  rw [addOne, if_pos hview]
  exact ⟨_, rfl⟩

theorem rule_progress (hinj : Function.Injective (nodeHash (C := C))) (hacyc : Acyclic C)
    (hw : WellFormed w.workload) (hc : RootsChain w) (hs : Sound w r) (hb : Blocks w r)
    (rule : Rule) (hview : rule = .replicaDecide → r.rs.view + 1 < 2 ^ 64) :
    ∃ r', rule.run w ord r = .ok r' := by
  cases rule with
  | leaderPrepare => exact leader_prepare_progress hw hb
  | replicaPrepare => exact replica_prepare_progress
  | leaderPreCommit => exact leader_qc_progress .prepare
  | replicaPreCommit => exact replica_vote_progress .prepare .preCommit holdPrepare
  | leaderCommit => exact leader_qc_progress .preCommit
  | replicaCommit => exact replica_vote_progress .preCommit .commit holdLock
  | leaderDecide => exact leader_qc_progress .commit
  | replicaDecide => exact replica_decide_progress hinj hacyc hc hs hb (hview rfl)
  | retryPendingExecute =>
    apply execute_decided_progress hinj hacyc hc hs hb
    intro x hx
    exact EntryMap.mem_keys.mp ((ord.perm _ _).mem_iff.mp hx)
  | tryKickPendingValidations => exact kick_leaves_progress hb _

theorem rule_blocks (rule : Rule) (h : rule.run w ord r = .ok r') (hb : Blocks w r) :
    Blocks w r' := by
  by_cases hne : rule = .leaderPrepare
  · subst rule
    rcases leader_prepare_cases h with ⟨rfl, _⟩ | ⟨newViews, leaf, block, _, _, _, _, _, _, _,
      hblock, _, hkick⟩
    · exact hb
    · exact hb.insert hblock (chores_backstage (kick_chores hkick)).tree
  · unfold Blocks
    rw [rule_tree rule h hne]
    exact hb

/-- A pass comes to its end; at most one of its rules leaves the view. -/
theorem pass_progress (hinj : Function.Injective (nodeHash (C := C))) (hacyc : Acyclic C)
    (hw : WellFormed w.workload) (hc : RootsChain w) (ord : Order) (rules : List Rule)
    (hnodup : rules.Nodup) (hs : Sound w r) (hb : Blocks w r)
    (hview : .replicaDecide ∈ rules → r.rs.view + 1 < 2 ^ 64) :
    ∃ r', runRules w ord rules r = .ok r' := by
  induction rules generalizing r with
  | nil => exact ⟨r, rfl⟩
  | cons rule rest ih =>
    obtain ⟨hfirst, hrest⟩ := List.nodup_cons.mp hnodup
    obtain ⟨mid, hmid⟩ : ∃ mid, rule.run w ord r = .ok mid :=
      rule_progress hinj hacyc hw hc hs hb rule (fun he => hview (by simp [he]))
    have hmoves : Moves (fun _ => none) (fun _ => True) w r mid := by
      by_cases hne : rule = .replicaDecide
      · subst rule
        exact rule_moves .replicaDecide hmid (fun hw => absurd hw.1 (by grind))
      · exact (rule_turn rule hmid hne).moves
    unfold runRules
    rw [hmid]
    refine ih hrest (hs.moves hinj hmoves) (rule_blocks rule hmid hb) ?_
    intro hmem
    have hne : rule ≠ .replicaDecide := by
      rintro rfl
      exact hfirst hmem
    have ht : Turn (fun _ => none) (fun _ => True) w r mid := rule_turn rule hmid hne
    rw [ht.view]
    exact hview (List.mem_cons_of_mem _ hmem)

/-- The messages that bring a node down: a proposal it takes for a height that
the workload has no block for, and a NEW-VIEW of the last view of all where sums
are checked. -/
def Crashing (keys : Nat → Option C.Key) (w : Wiring C) (r : Replica C) : Wire C → Prop
  | .proposal view node justify sender => sender = r.rs.leaderFor view ∧
      verifyJustify justify r.rs.quorum keys = true ∧ node.parent = expectedParent justify ∧
      w.workload.manifest.numBlocks.toNat ≤ node.height.toNat
  | .newView view _ _ => w.overflowChecks = true ∧ 2 ^ 64 ≤ view + 1
  | _ => False

/-- What was handed to the worker has a block. -/
theorem Sound.kick_block (hinj : Function.Injective (nodeHash (C := C))) (hs : Sound w r)
    {node : Node C} (hasked : (r.rs.validationResult (nodeHash node)).isSome ∨
      r.rs.pendingValidation = some (nodeHash node)) :
    ∃ block, w.workload.block node.height = .ok block := by
  have hask : Asked w r (nodeHash node) := by
    rcases hasked with hv | hp
    · exact hs.requests.verdict _ hv
    · obtain ⟨entry, hmem, he⟩ := hs.occupied _ hp
      rw [← he]
      exact hs.requests.queued entry hmem
  obtain ⟨node', block, hget, hblock, _⟩ := hask
  cases hinj (hs.requests.hashes _ _ hget)
  exact ⟨block, hblock⟩

/-- Looking a new leaf up in the workload is where its handler can panic. -/
theorem kick_iff (hinj : Function.Injective (nodeHash (C := C))) (hs : Sound w r)
    {node : Node C} (hget : r.rs.tree.get? (nodeHash node) = some node) :
    (∃ r', maybeKickValidation w (nodeHash node) r = .ok r') ↔
      ∃ block, w.workload.block node.height = .ok block := by
  by_cases hasked : (r.rs.validationResult (nodeHash node)).isSome ∨
      r.rs.pendingValidation = some (nodeHash node)
  · refine ⟨fun _ => hs.kick_block hinj hasked, fun _ => ?_⟩
    unfold maybeKickValidation
    rcases hasked with hv | hp
    · rw [if_pos hv]
      exact ⟨r, rfl⟩
    · rw [if_pos hp]
      split <;> exact ⟨r, rfl⟩
  · simp only [not_or] at hasked
    unfold maybeKickValidation
    rw [if_neg hasked.1, if_neg hasked.2, hget]
    dsimp only
    constructor
    · rintro ⟨r', h⟩
      split at h
      · cases h
      · exact ⟨_, by assumption⟩
    · rintro ⟨block, hblock⟩
      rw [hblock]
      dsimp only
      split
      · exact ⟨r, rfl⟩
      split
      · exact ⟨r, rfl⟩
      · exact ⟨_, rfl⟩

theorem proposal_iff (hinj : Function.Injective (nodeHash (C := C)))
    (hw : WellFormed w.workload) (hs : Sound w r) (view : Nat) (node : Node C)
    (justify : Option (QC C)) (sender : Nat) :
    (∃ r', handleProposal keys w view node justify sender r = .ok r') ↔
      ¬ Crashing keys w r (.proposal view node justify sender) := by
  unfold handleProposal Crashing
  by_cases hleader : sender = r.rs.leaderFor view
  · by_cases hsigs : verifyJustify justify r.rs.quorum keys = true
    · by_cases hparent : node.parent = expectedParent justify
      · have hmove : Move keys (fun _ => True) w r (r.withRs (stashProposal view node justify)) :=
          .stash view node justify sender trivial hleader hsigs hparent
        have hget : (r.withRs (stashProposal view node justify)).rs.tree.get? (nodeHash node) =
            some node := EntryMap.get?_insert_self _ _ _
        rw [if_neg (by simpa using hleader), if_neg (by simpa using hsigs),
          if_neg (by simpa using hparent), kick_iff hinj (hs.move hinj hmove) hget, hw]
        simp [hleader, hsigs, hparent]
      · simp [hleader, hsigs, hparent]
    · simp [hleader, hsigs]
  · simp [hleader]

theorem message_iff (hinj : Function.Injective (nodeHash (C := C))) (hw : WellFormed w.workload)
    (hs : Sound w r) (msg : Wire C) :
    (∃ r', handleMsg keys w r msg = .ok r') ↔ ¬ Crashing keys w r msg := by
  cases msg with
  | hello nodeId pubkey => exact ⟨fun _ h => h, fun _ => ⟨r, rfl⟩⟩
  | proposal view node justify sender => exact proposal_iff hinj hw hs view node justify sender
  | phaseQc ty view justify sender =>
    refine ⟨fun _ h => h, fun _ => ?_⟩
    simp only [handleMsg, handlePhaseQc]
    repeat' split
    all_goals exact ⟨_, rfl⟩
  | vote ty view nh voter sig =>
    refine ⟨fun _ h => h, fun _ => ?_⟩
    simp only [handleMsg, handleVote]
    repeat' split
    all_goals exact ⟨_, rfl⟩
  | newView view justify sender =>
    simp only [handleMsg, handleNewView, Crashing, addOne]
    by_cases hlast : view + 1 < 2 ^ 64
    · rw [if_pos hlast]
      refine ⟨fun _ h => by omega, fun _ => ?_⟩
      repeat' split
      all_goals first | exact ⟨_, rfl⟩ | contradiction
    · rw [if_neg hlast]
      cases hchecks : w.overflowChecks with
      | true => simp; omega
      | false =>
        refine ⟨fun _ h => absurd h.1 (by simp), fun _ => ?_⟩
        repeat' split
        all_goals first | exact ⟨_, rfl⟩ | contradiction

theorem event_blocks (hinj : Function.Injective (nodeHash (C := C))) (hs : Sound w r)
    (hb : Blocks w r) (ev : Event C) (h : handleEvent keys w r ev = .ok r') : Blocks w r' := by
  intro x node hget
  rcases event_tree ev h hget with hget | ⟨view, justify, sender, rfl⟩
  · exact hb x node hget
  · rcases proposal_cases h with rfl | ⟨hleader, hsigs, hparent, hkick⟩
    · exact hb x node hget
    · have hmove : Move keys (fun _ => True) w r (r.withRs (stashProposal view node justify)) :=
        .stash view node justify sender trivial hleader hsigs hparent
      have hself : (r.withRs (stashProposal view node justify)).rs.tree.get? (nodeHash node) =
          some node := EntryMap.get?_insert_self _ _ _
      exact (kick_iff hinj (hs.move hinj hmove) hself).mp ⟨r', hkick⟩

theorem Sound.start : Sound w (startProtocol w (bootReplica w n)) := by
  refine ⟨.start, Serial.start.occupied, ?_, fun _ _ => .start⟩
  intro _ h
  rw [startProtocol, enterNewView_eq]
  rfl

theorem reach_sound (hinj : Function.Injective (nodeHash (C := C))) {m : Machine C}
    (hr : Machine.Reach w n m) : Sound w m.replica :=
  reach_invariant .start (fun _ _ _ h hm => h.move hinj hm) hr

theorem reach_blocks (hinj : Function.Injective (nodeHash (C := C))) {m : Machine C}
    (hr : Machine.Reach w n m) : Blocks w m.replica := by
  induction hr with
  | start =>
    intro h node hget
    rw [Machine.start, startProtocol, enterNewView_tree] at hget
    cases hget
  | step keys ev hr hstep _ ih =>
    cases hstep with
    | event ev r r' running ran => exact event_blocks hinj (reach_sound hinj hr) ih ev ran
    | rule ord rule rest r r' ran => exact rule_blocks rule ran ih

/-- Handling a message and the pass after it return exactly when the message is
none of the crashing ones. The proofs of a verifying node have to fit together,
and the node must not be in the last view of all. -/
theorem messages_handled (hinj : Function.Injective (nodeHash (C := C))) (hacyc : Acyclic C)
    (hw : WellFormed w.workload) (hc : RootsChain w) {m : Machine C} (hr : Machine.Reach w n m)
    (hview : m.replica.rs.view + 1 < 2 ^ 64) (keys : Nat → Option C.Key) (ord : Order)
    (msg : Wire C) :
    (∃ r', (handleMsg keys w m.replica msg).bind (tryAdvance w ord) = .ok r') ↔
      ¬ Crashing keys w m.replica msg := by
  have hs := reach_sound hinj hr
  have hb := reach_blocks hinj hr
  rw [← message_iff hinj hw hs]
  constructor
  · rintro ⟨r', h⟩
    obtain ⟨mid, hmid, _⟩ := bind_ok.mp h
    exact ⟨mid, hmid⟩
  · rintro ⟨mid, hmid⟩
    have hturn : Turn keys (fun _ => True) w m.replica mid := message_turn msg hmid trivial
    rw [hmid]
    apply pass_progress hinj hacyc hw hc ord passOrder (by decide) (hs.moves hinj hturn.moves)
      (event_blocks hinj hs hb (.message msg) hmid)
    intro _
    rw [hturn.view]
    exact hview

end

/-- How far a digest is from genesis at most. -/
def digestRank : Nat ⊕ List UInt8 → Nat
  | .inl k => k
  | .inr l => l.length + 1

theorem digestRank_lt_codeWord (h : Nat ⊕ List UInt8) : digestRank h < (codeWord h).length := by
  cases h with
  | inl k => simp [digestRank, codeWord]
  | inr l => simp [digestRank, codeWord]; omega

section
variable {table : List (List UInt8)} {hex : String → Option (Nat ⊕ List UInt8)}

/-- Where no digest of the table is that of a node above the first, a child's digest
is further from genesis than its parent's. -/
theorem digestRank_parent (ht : ∀ l ∈ table, l = [0, 2, 0] ++ le64 0)
    {child parent : Nat ⊕ List UInt8} (h : ParentOf (C := tabled 0 table hex) child parent) :
    digestRank parent < digestRank child := by
  obtain ⟨node, rfl, rfl⟩ := h
  have hcode := digestRank_lt_codeWord node.parent
  simp only [nodeHash, tabled, List.replicate_zero, List.nil_append, List.append_assoc]
  split
  · rename_i hmem
    have hbytes : codeWord node.parent ++ (codeWord node.cmd ++ le64 node.height) =
        codeWord (.inl 0) ++ ([2, 0] ++ le64 0) := by
      simpa [codeWord] using ht _ hmem
    rw [(codeWord_splits _ _ _ _ hbytes).1]
    simp [digestRank]
  · have hlong : (codeWord node.parent).length ≤
        (codeWord node.parent ++ (codeWord node.cmd ++ le64 node.height)).length := by simp
    exact hcode.trans (Nat.lt_succ_of_le hlong)

theorem tabled_acyclic (ht : ∀ l ∈ table, l = [0, 2, 0] ++ le64 0) :
    Acyclic (tabled 0 table hex) := by
  intro h hloop
  have hlt : ∀ x, TransGen (ParentOf (C := tabled 0 table hex)) h x →
      digestRank x < digestRank h := by
    intro x hx
    induction hx with
    | single hstep => exact digestRank_parent ht hstep
    | tail _ hstep ih => exact (digestRank_parent ht hstep).trans ih
  exact Nat.lt_irrefl _ (hlt h hloop)

end

namespace Quartet

theorem acyclic : Acyclic crypto := tabled_acyclic (by simp)

/-- The same four replicas over a workload of three blocks and no more. -/
def threeBlocks : Cluster crypto :=
  { cluster with
    workload := { cluster.workload with
      commitJson := fun height =>
        if height.toNat < 3 then some ⟨height.toUInt32, "", 0⟩ else none } }

theorem threeBlocks_wellFormed : WellFormed threeBlocks.workload := by
  intro height
  have hnum : threeBlocks.workload.manifest.numBlocks.toNat = 3 := rfl
  rw [hnum]
  unfold Workload.block blockAt
  by_cases hlt : height.toNat < 3
  · have hsome : threeBlocks.workload.commitJson height = some ⟨height.toUInt32, "", 0⟩ :=
      if_pos hlt
    have heq : height.toUInt32.toNat = height.toNat := by
      rw [UInt64.toNat_toUInt32]
      omega
    rw [hsome]
    simp [heq, hlt, crypto, tabled]
  · have hnone : threeBlocks.workload.commitJson height = none := if_neg hlt
    rw [hnone]
    simp [hlt]

/-- Stopped for want of the `commit.json` of some height. -/
def lacksCommit (height : UInt64) : Outcome crypto α → Bool
  | .error (.commitJson h) => h = height
  | _ => false

theorem lacksCommit_eq {height : UInt64} {x : Outcome crypto α}
    (h : lacksCommit height x = true) : x = .error (.commitJson height) := by
  cases x with
  | ok a => cases h
  | error e =>
    cases e with
    | commitJson k =>
      have hk : k = height := of_decide_eq_true h
      rw [hk]
    | _ => cases h

/-- A block past the end of the workload. -/
def beyond : Wire crypto := .proposal 4 ⟨.inl 0, .inr [], 3⟩ none 3

end Quartet

/-- Node 1 takes the first proposal without harm. -/
theorem quartet_survives : ∃ s : System Quartet.crypto,
    System.Reach Quartet.threeBlocks Quartet.threeBlocks.Authentic s ∧
      ∃ r', (handleMsg Quartet.threeBlocks.peerKeys (Quartet.threeBlocks.wiring 1) (s 1).replica
        (.proposal 1 Quartet.first none 0)).bind
          (tryAdvance (Quartet.threeBlocks.wiring 1) .asStored) = .ok r' := by
  have hplay : (System.play Quartet.threeBlocks Quartet.threeBlocks.Authentic [(1, none)]
      (System.start Quartet.threeBlocks)).any (fun s =>
        decide ((s 1).replica.rs.view = 1)) = true := by decide +kernel
  obtain ⟨s, hr, hc⟩ := play_exists hplay
  refine ⟨s, hr, ?_⟩
  refine (messages_handled tabled_nodes_apart Quartet.acyclic Quartet.threeBlocks_wellFormed
    ?_ (hr.machine 1) ?_ _ _ _).mpr ?_
  · intro vkey hv
    cases hv
  · rw [of_decide_eq_true hc]
    decide
  · intro hcrash
    exact absurd hcrash.2.2.2 (by decide)

/-- One message of a byzantine leader brings node 1 down. -/
theorem height_out_of_range : ∃ s : System Quartet.crypto,
    System.Reach Quartet.threeBlocks Quartet.threeBlocks.Authentic s ∧ (s 1).todo = [] ∧
      WellFormed Quartet.threeBlocks.workload ∧
      Quartet.threeBlocks.Authentic s.replicas 1 Quartet.beyond ∧
      handleMsg Quartet.threeBlocks.peerKeys (Quartet.threeBlocks.wiring 1) (s 1).replica
        Quartet.beyond = .error (.commitJson 3) := by
  have hplay : (System.play Quartet.threeBlocks Quartet.threeBlocks.Authentic [(1, none)]
      (System.start Quartet.threeBlocks)).any (fun s => (s 1).todo.isEmpty &&
        decide (Quartet.threeBlocks.Authentic s.replicas 1 Quartet.beyond) &&
        Quartet.lacksCommit 3 (handleMsg Quartet.threeBlocks.peerKeys
          (Quartet.threeBlocks.wiring 1) (s 1).replica Quartet.beyond)) = true := by
    decide +kernel
  obtain ⟨s, hr, hc⟩ := play_exists hplay
  simp only [Bool.and_eq_true, List.isEmpty_iff, decide_eq_true_eq] at hc
  obtain ⟨⟨hidle, hauth⟩, hfails⟩ := hc
  exact ⟨s, hr, hidle, Quartet.threeBlocks_wellFormed, hauth, Quartet.lacksCommit_eq hfails⟩

end ZkStf
