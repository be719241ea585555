import ZkStf.Proofs.Requests

namespace ZkStf
open ZkStf.Basis
open Relation (ReflTransGen)
variable {C : Crypto}

section
variable {keys : Nat → Option C.Key} {arrives : Wire C → Prop} {w : Wiring C} {n : Nat}
  {r r' : Replica C}

/-- A pass over the leaves that leaves the slot empty handed nothing over, and
could not have: no leaf it looked at passes the checks. -/
theorem kick_leaves_free {hashes : List C.Hash} (h : kickLeaves w hashes r = .ok r')
    (hfree : r'.rs.pendingValidation = none) :
    r' = r ∧ ∀ x ∈ hashes, ∀ node block input, ¬ Kickable w r x node block input := by
  induction hashes generalizing r with
  | nil => cases h; exact ⟨rfl, by simp⟩
  | cons nh rest ih =>
    unfold kickLeaves at h
    split at h
    · rename_i hbusy
      cases h
      rw [hfree] at hbusy
      cases hbusy
    · obtain ⟨mid, hfirst, hrest⟩ := bind_ok.mp h
      obtain ⟨rfl, hnone⟩ := ih hrest
      rcases kick_cases hfirst with ⟨rfl, hnot⟩ | ⟨node, block, input, _, rfl⟩
      · refine ⟨rfl, ?_⟩
        intro x hx
        rcases List.mem_cons.mp hx with rfl | hx
        · exact hnot
        · exact hnone x hx
      · cases hfree

/-- The rules still to run are the end of a pass. -/
theorem reach_todo {m : Machine C} (hr : Machine.Reach w n m) : m.todo <:+ passOrder := by
  induction hr with
  | start => exact List.suffix_rfl
  | step keys ev _ hstep _ ih =>
    cases hstep with
    | event ev r r' running ran => exact List.suffix_rfl
    | rule ord rule rest r r' ran => exact (List.suffix_cons rule rest).trans ih

/-- Between two events with an empty slot, no leaf of the tree is left that
could be handed over. -/
theorem idle_kicked {m : Machine C} (hr : Machine.Reach w n m) (hidle : m.todo = [])
    (hfree : m.replica.rs.pendingValidation = none) :
    ∀ x node block input, ¬ Kickable w m.replica x node block input := by
  cases hr with
  | start => cases hidle
  | step keys ev hr hstep =>
    cases hstep with
    | event ev r r' running ran => cases hidle
    | rule ord rule rest r r' ran =>
      cases hidle
      have hlast : rule = .tryKickPendingValidations := by
        obtain ⟨done, hdone⟩ := reach_todo hr
        have hend := congrArg List.getLast? hdone
        simpa [passOrder] using hend
      subst rule
      obtain ⟨rfl, hnone⟩ := kick_leaves_free ran hfree
      intro x node block input hk
      refine hnone x ?_ node block input hk
      have hmem := EntryMap.mem_keys.mpr (by rw [hk.found]; rfl)
      exact (ord.perm _ _).mem_iff.mpr hmem

theorem asI64_le_toNat (h : UInt64) : asI64 h ≤ h.toNat := by
  change h.toBitVec.toInt ≤ h.toBitVec.toNat
  rw [BitVec.toInt_eq_toNat_cond]
  split <;> omega

/-- A node of the tree that carries the command of its height, with its parent. -/
structure Fit (w : Wiring C) (r : Replica C) (h : C.Hash) (x p : Node C) : Prop where
  found : r.rs.tree.get? h = some x
  cmd : ∃ block, w.workload.block x.height = .ok block ∧ block.cmd = x.cmd
  parent : r.rs.tree.get? x.parent = some p

/-- Every fit node whose parent is executed or validated has its verdict. -/
def Kicked (w : Wiring C) (r : Replica C) : Prop :=
  ∀ h x p, Fit w r h x p →
    ((p.height.toNat : Int) ≤ r.rs.lastExecutedHeight ∨
      r.rs.validationResult x.parent = some true) → (r.rs.validationResult h).isSome

/-- No fit node has a parent that is validated but not executed. -/
def NoGap (w : Wiring C) (r : Replica C) : Prop :=
  ∀ h x p, Fit w r h x p → r.rs.validationResult x.parent = some true →
    (p.height.toNat : Int) ≤ r.rs.lastExecutedHeight

/-- A fit node without a verdict whose input state is at hand would be handed
over. -/
theorem Fit.verdict {h : C.Hash} {x p : Node C} (hf : Fit w r h x p)
    (hfree : r.rs.pendingValidation = none)
    (hnone : ∀ x node block input, ¬ Kickable w r x node block input)
    (hinput : (inputState r x).isSome) : (r.rs.validationResult h).isSome := by
  by_contra hno
  obtain ⟨block, hblock, hcmd⟩ := hf.cmd
  obtain ⟨input, hi⟩ := Option.isSome_iff_exists.mp hinput
  refine hnone h x block input ⟨by simpa using hno, ?_, hf.found, hblock, hcmd, hi⟩
  rw [hfree]
  simp

theorem Fit.parent_ne (hgen : ∀ node : Node C, nodeHash node ≠ genesisHash C)
    (hq : Requests w r) {h : C.Hash} {x p : Node C} (hf : Fit w r h x p) :
    x.parent ≠ genesisHash C := by
  intro hroot
  exact hgen p ((hq.hashes _ _ hf.parent).trans hroot)

theorem inputState_parent {x p : Node C} (hne : x.parent ≠ genesisHash C)
    (hget : r.rs.tree.get? x.parent = some p) :
    inputState r x = if asI64 p.height ≤ r.rs.lastExecutedHeight then some r.liveState
      else r.rs.postStateByNode x.parent := by
  unfold inputState
  rw [if_neg hne, hget]

theorem Requests.verdict_height (hq : Requests w r) {h : C.Hash} {p : Node C}
    (hv : (r.rs.validationResult h).isSome) (hget : r.rs.tree.get? h = some p) :
    asI64 p.height = p.height.toNat := by
  obtain ⟨node, block, hget', hblock, _⟩ := hq.verdict h hv
  cases hget.symm.trans hget'
  have hsmall := (block_spec hblock).1
  exact asI64_of_lt (by omega)

theorem kicked_iff (hgen : ∀ node : Node C, nodeHash node ≠ genesisHash C) (hq : Requests w r)
    (hfree : r.rs.pendingValidation = none)
    (hnone : ∀ x node block input, ¬ Kickable w r x node block input) :
    Kicked w r ↔ (w.validator.reexecutes = true ∨ NoGap w r) := by
  constructor
  · intro hk
    cases hv : w.validator.reexecutes with
    | true => exact Or.inl rfl
    | false =>
      -- a verdict was asked for on an executed parent only
      right
      intro h x p hf hvalid
      obtain ⟨x', block, hget, _, _, hparent⟩ := hq.verdict h (hk h x p hf (Or.inr hvalid))
      cases hf.found.symm.trans hget
      rcases hparent with hre | hroot | ⟨p', hget', hle⟩
      · cases hv.symm.trans hre
      · exact absurd hroot (hf.parent_ne hgen hq)
      · cases hf.parent.symm.trans hget'
        rw [← hq.verdict_height (by rw [hvalid]; rfl) hf.parent]
        exact hle
  · intro hcond h x p hf hready
    apply hf.verdict hfree hnone
    rw [inputState_parent (hf.parent_ne hgen hq) hf.parent]
    split
    · rfl
    · rename_i hgt
      have hle := asI64_le_toNat p.height
      have hvalid : r.rs.validationResult x.parent = some true := by
        rcases hready with hready | hready
        · omega
        · exact hready
      rcases hcond with hre | hgap
      · rcases hq.cached hre _ hvalid with hpost | ⟨p', hget, hexec⟩
        · exact hpost
        · cases hf.parent.symm.trans hget
          exact absurd hexec hgt
      · have hexec := hgap h x p hf hvalid
        omega

/-- The node extends genesis or a node at an executed height. -/
def Grounds (r : Replica C) (node : Node C) : Prop :=
  node.parent = genesisHash C ∨ ∃ p, r.rs.tree.get? node.parent = some p ∧
    (p.height.toNat : Int) ≤ r.rs.lastExecutedHeight

/-- The runs of a node in which blocks are proposed on top of executed ones
only: those of the proposals that arrive, and those of the certificates it may
extend when it gets to propose itself. No view passes `u64::MAX`. -/
inductive Machine.Grounded (w : Wiring C) (n : Nat) : Machine C → Prop
  | start : Grounded w n (.start w n)
  | step {m m' : Machine C} (keys : Nat → Option C.Key) (ev : Option (Event C)) :
      Grounded w n m → Machine.Step keys w ev m m' → ¬ Wraps m.replica m'.replica →
      (∀ view node justify sender, ev = some (.message (.proposal view node justify sender)) →
        Grounds m.replica node) →
      (m.todo.head? = some .leaderPrepare → ∀ sender qc,
        (m.replica.rs.viewData (m.replica.rs.view - 1)).newViewMsgs.get? sender =
          some (some qc) → ∃ p, m.replica.rs.tree.get? qc.nodeHash = some p ∧
            (p.height.toNat : Int) ≤ m.replica.rs.lastExecutedHeight) →
      Grounded w n m'

theorem Grounds.mono {node : Node C} (h : Grounds r node)
    (hg : ∀ h node, r.rs.tree.get? h = some node → r'.rs.tree.get? h = some node)
    (hl : r.rs.lastExecutedHeight ≤ r'.rs.lastExecutedHeight) : Grounds r' node := by
  rcases h with hroot | ⟨p, hget, hle⟩
  · exact Or.inl hroot
  · exact Or.inr ⟨p, hg _ _ hget, hle.trans hl⟩

/-- A leader's own leaf is the only node that a rule adds to the tree. -/
theorem rule_tree (rule : Rule) (h : rule.run w ord r = .ok r') (hne : rule ≠ .leaderPrepare) :
    r'.rs.tree = r.rs.tree := by
  have hqc : ∀ p, leaderQc p w ord r = .ok r' → r'.rs.tree = r.rs.tree := by
    intro p h
    rcases leader_qc_cases h with ⟨rfl, _⟩ | ⟨qc, _, _, _, rfl⟩
    · rfl
    · rw [emit_rs, withRs_rs, stageQc_eq]
      rfl
  cases rule with
  | leaderPrepare => exact absurd rfl hne
  | replicaPrepare =>
    rcases replica_prepare_cases h with ⟨rfl, _⟩ | rfl | ⟨leaf, high, _, _, _, _, rfl⟩
    · rfl
    · rfl
    · rw [castVote_eq]
      rfl
  | leaderPreCommit => exact hqc .prepare h
  | replicaPreCommit =>
    rcases replica_vote_cases h with ⟨rfl, _⟩ | ⟨qc, _, _, _, rfl⟩
    · rfl
    · rw [castVote_eq]
      rfl
  | leaderCommit => exact hqc .preCommit h
  | replicaCommit =>
    rcases replica_vote_cases h with ⟨rfl, _⟩ | ⟨qc, _, _, _, rfl⟩
    · rfl
    · rw [castVote_eq]
      rfl
  | leaderDecide => exact hqc .commit h
  | replicaDecide =>
    rcases replica_decide_inv h with ⟨rfl, _⟩ | ⟨qc, mid, next, _, _, _, hchores, _, _, rfl⟩
    · rfl
    · rw [enterNewView_tree]
      exact (chores_backstage hchores).tree
  | retryPendingExecute => exact (chores_backstage (retry_chores h)).tree
  | tryKickPendingValidations => exact (chores_backstage (kick_leaves_chores h)).tree

theorem event_tree (ev : Event C) (h : handleEvent keys w r ev = .ok r') {x : C.Hash}
    {node : Node C} (hget : r'.rs.tree.get? x = some node) : r.rs.tree.get? x = some node ∨
      ∃ view justify sender, ev = .message (.proposal view node justify sender) := by
  have hsame : r'.rs.tree = r.rs.tree → r.rs.tree.get? x = some node ∨
      ∃ view justify sender, ev = .message (.proposal view node justify sender) :=
    fun he => Or.inl (he ▸ hget)
  cases ev with
  | message msg =>
    cases msg with
    | hello nodeId pubkey => cases h; exact hsame rfl
    | proposal view leaf justify sender =>
      rcases proposal_cases h with rfl | ⟨_, _, _, hkick⟩
      · exact hsame rfl
      · rw [(chores_backstage (kick_chores hkick)).tree] at hget
        change (r.rs.tree.insert (nodeHash leaf) leaf).get? x = some node at hget
        rw [EntryMap.get?_insert] at hget
        split at hget
        · cases hget
          exact Or.inr ⟨view, justify, sender, rfl⟩
        · exact Or.inl hget
    | phaseQc ty view justify sender =>
      simp only [handleEvent, handleMsg, handlePhaseQc] at h
      repeat' split at h
      all_goals cases h
      all_goals first | exact hsame rfl | skip
      apply hsame
      rw [withRs_rs, receiveQc_eq, stageQc_eq]
      rfl
    | vote ty view nh voter sig =>
      simp only [handleEvent, handleMsg, handleVote] at h
      repeat' split at h
      all_goals cases h
      all_goals exact hsame rfl
    | newView view justify sender =>
      simp only [handleEvent, handleMsg, handleNewView] at h
      repeat' split at h
      all_goals cases h
      all_goals exact hsame rfl
  | timer view =>
    rcases timer_inv h with ⟨rfl, _⟩ | ⟨timeout, next, _, _, rfl⟩
    · exact hsame rfl
    · exact hsame (enterNewView_tree w _ _)
  | validated k =>
    simp only [handleEvent] at h
    split at h
    · cases h
      exact hsame rfl
    · obtain ⟨out, _, rfl⟩ := map_ok.mp h
      exact hsame rfl

/-- What enters the tree in a step: the node of the proposal that arrived, or the
leaf a leader builds on a certificate it was told of. -/
theorem step_tree {ev : Option (Event C)} {m m' : Machine C} (hs : Machine.Step keys w ev m m')
    {h : C.Hash} {node : Node C} (hget : m'.replica.rs.tree.get? h = some node) :
    m.replica.rs.tree.get? h = some node ∨
    (∃ view justify sender, ev = some (.message (.proposal view node justify sender))) ∨
    (m.todo.head? = some .leaderPrepare ∧ (node.parent = genesisHash C ∨ ∃ sender qc,
      (m.replica.rs.viewData (m.replica.rs.view - 1)).newViewMsgs.get? sender =
        some (some qc) ∧ node.parent = qc.nodeHash)) := by
  cases hs with
  | event ev r r' running ran =>
    rcases event_tree ev ran hget with hget | ⟨view, justify, sender, rfl⟩
    · exact Or.inl hget
    · exact Or.inr (Or.inl ⟨view, justify, sender, rfl⟩)
  | rule ord rule rest r r' ran =>
    by_cases hne : rule = .leaderPrepare
    · subst rule
      rcases leader_prepare_cases ran with ⟨rfl, _⟩ | ⟨newViews, leaf, block, hread, _, _, _,
        hparent, _, _, _, _, hkick⟩
      · exact Or.inl hget
      · rw [(chores_backstage (kick_chores hkick)).tree] at hget
        change (r.rs.tree.insert (nodeHash leaf) leaf).get? h = some node at hget
        rw [EntryMap.get?_insert] at hget
        split at hget
        · cases hget
          refine Or.inr (Or.inr ⟨rfl, ?_⟩)
          cases hhigh : highQc newViews with
          | none =>
            rw [hhigh] at hparent
            exact Or.inl hparent
          | some qc =>
            rw [hhigh] at hparent
            obtain ⟨sender, hmem⟩ := highQc_mem hhigh
            rw [hread] at hmem
            exact Or.inr ⟨sender, qc,
              EntryMap.get?_eq_some.mpr ((ord.perm _ _).mem_iff.mp hmem), hparent⟩
        · exact Or.inl hget
    · rw [rule_tree rule ran hne] at hget
      exact Or.inl hget

theorem Machine.Grounded.reach {m : Machine C} (hr : Machine.Grounded w n m) :
    Machine.Reach w n m := by
  induction hr with
  | start => exact .start
  | step keys ev _ hstep hw _ _ ih => exact ih.step keys ev hstep hw

/-- In such a run every node of the tree extends genesis or an executed height. -/
theorem grounded_tree (hinj : Function.Injective (nodeHash (C := C))) {m : Machine C}
    (hr : Machine.Grounded w n m) :
    ∀ h node, m.replica.rs.tree.get? h = some node → Grounds m.replica node := by
  induction hr with
  | start =>
    intro h node hget
    rw [Machine.start, startProtocol, enterNewView_tree] at hget
    cases hget
  | @step m m' keys ev hr hstep hw hprop hlead ih =>
    have hm : Moves keys (fun _ => True) w m.replica m'.replica := step_moves hstep hw (by simp)
    obtain ⟨_, hg⟩ := moves_tree_grow hinj hm (reach_requests hinj hr.reach).hashes
    have hl := moves_last_mono hm
    intro h node hget
    have hbefore : Grounds m.replica node := by
      rcases step_tree hstep hget with hget | ⟨view, justify, sender, hev⟩ |
        ⟨hhead, hroot | ⟨sender, qc, hqc, hparent⟩⟩
      · exact ih h node hget
      · exact hprop view node justify sender hev
      · exact Or.inl hroot
      · obtain ⟨p, hp, hle⟩ := hlead hhead sender qc hqc
        exact Or.inr ⟨p, hparent ▸ hp, hle⟩
    exact hbefore.mono hg hl

/-- No validation is deferred forever by a re-executing node; by a verifying one,
as long as blocks are proposed on top of executed ones. In general, what is left
over is exactly what has a validated parent that is not executed. -/
theorem validations_kicked (hinj : Function.Injective (nodeHash (C := C)))
    (hgen : ∀ node : Node C, nodeHash node ≠ genesisHash C) {m : Machine C}
    (hr : Machine.Reach w n m) (hidle : m.todo = [])
    (hfree : m.replica.rs.pendingValidation = none) :
    (w.validator.reexecutes = true ∨ Machine.Grounded w n m → Kicked w m.replica) ∧
      (Kicked w m.replica ↔ (w.validator.reexecutes = true ∨ NoGap w m.replica)) := by
  have hq := reach_requests hinj hr
  have hiff := kicked_iff hgen hq hfree (idle_kicked hr hidle hfree)
  refine ⟨?_, hiff⟩
  rintro (hre | hground)
  · exact hiff.mpr (Or.inl hre)
  · refine hiff.mpr (Or.inr ?_)
    intro h x p hf _
    rcases grounded_tree hinj hground h x hf.found with hroot | ⟨p', hget, hle⟩
    · exact absurd hroot (hf.parent_ne hgen hq)
    · cases hf.parent.symm.trans hget
      exact hle

end

namespace Quartet

/-- Nodes 0 and 1 validate the first block and vote for it; node 1 then hears of
the second one from the leader of view 3. -/
def onTop : List (Nat × Option (Event crypto)) :=
  schedule.take 7 ++ [(1, some (.message (.proposal 3 second (some (cert .prepare)) 2)))]

/-- The same four replicas as verifiers, with a proof for every block. -/
def verifiers : Cluster crypto :=
  { cluster with
    validator := fun _ => .verify ()
    workload := { cluster.workload with
      proof := fun _ => some (true, ⟨.inl 0, .inl 0, .inl 0⟩) } }

end Quartet

/-- A re-executing node 1 has checked the second block as well. -/
theorem quartet_kicked : ∃ s : System Quartet.crypto,
    System.Reach Quartet.cluster Quartet.cluster.Authentic s ∧
      Fit (Quartet.cluster.wiring 1) (s 1).replica (nodeHash Quartet.second) Quartet.second
        Quartet.first ∧ ((s 1).replica.rs.validationResult (nodeHash Quartet.second)).isSome := by
  have hplay : (System.play Quartet.cluster Quartet.cluster.Authentic
      (Quartet.onTop ++ [(1, some (.validated 0))]) (System.start Quartet.cluster)).any (fun s =>
        (s 1).todo.isEmpty && (s 1).replica.rs.pendingValidation.isNone &&
        decide ((s 1).replica.rs.tree.get? (nodeHash Quartet.second) = some Quartet.second) &&
        decide ((s 1).replica.rs.tree.get? (.inl 1) = some Quartet.first) &&
        decide ((s 1).replica.rs.validationResult (.inl 1) = some true)) = true := by
    decide +kernel
  obtain ⟨s, hr, hc⟩ := play_exists hplay
  simp only [Bool.and_eq_true, List.isEmpty_iff, Option.isNone_iff_eq_none,
    decide_eq_true_eq] at hc
  obtain ⟨⟨⟨⟨hidle, hfree⟩, hsecond⟩, hfirst⟩, hvalid⟩ := hc
  have hfit : Fit (Quartet.cluster.wiring 1) (s 1).replica (nodeHash Quartet.second)
      Quartet.second Quartet.first := ⟨hsecond, ⟨_, rfl, rfl⟩, hfirst⟩
  have hkicked := (validations_kicked tabled_nodes_apart tabled_nodes_fresh
    (hr.machine 1) hidle hfree).1 (Or.inl rfl)
  exact ⟨s, hr, hfit, hkicked _ _ _ hfit (Or.inr hvalid)⟩

/-- A verifying node 1 leaves the second block unchecked, with an idle worker and
the first block valid. -/
theorem second_block_deferred : ∃ s : System Quartet.crypto,
    System.Reach Quartet.verifiers Quartet.verifiers.Authentic s ∧
      Machine.Reach (Quartet.verifiers.wiring 1) 4 (s 1) ∧ (s 1).todo = [] ∧
      (s 1).replica.rs.pendingValidation = none ∧
      ¬ Kicked (Quartet.verifiers.wiring 1) (s 1).replica := by
  have hplay : (System.play Quartet.verifiers Quartet.verifiers.Authentic Quartet.onTop
      (System.start Quartet.verifiers)).any (fun s =>
        (s 1).todo.isEmpty && (s 1).replica.rs.pendingValidation.isNone &&
        decide ((s 1).replica.rs.tree.get? (nodeHash Quartet.second) = some Quartet.second) &&
        decide ((s 1).replica.rs.tree.get? (.inl 1) = some Quartet.first) &&
        decide ((s 1).replica.rs.validationResult (.inl 1) = some true) &&
        ((s 1).replica.rs.validationResult (nodeHash Quartet.second)).isNone) = true := by
    decide +kernel
  obtain ⟨s, hr, hc⟩ := play_exists hplay
  simp only [Bool.and_eq_true, List.isEmpty_iff, Option.isNone_iff_eq_none,
    decide_eq_true_eq] at hc
  obtain ⟨⟨⟨⟨⟨hidle, hfree⟩, hsecond⟩, hfirst⟩, hvalid⟩, hnone⟩ := hc
  refine ⟨s, hr, hr.machine 1, hidle, hfree, ?_⟩
  intro hkicked
  have hsome := hkicked _ _ _ ⟨hsecond, ⟨_, rfl, rfl⟩, hfirst⟩ (Or.inr hvalid)
  rw [hnone] at hsome
  cases hsome

end ZkStf
