import ZkStf.Proofs.Checks
import ZkStf.Proofs.Playback

namespace ZkStf
open ZkStf.Basis
open ZkStf.Basis.Ballots (Phase)
open Relation (ReflTransGen)
variable {C : Crypto}

def Effect.request : Effect C → Option (ValidateRequest C)
  | .submit req _ => some req
  | _ => none

/-- The hashes a node has submitted to its worker, in the order of its run. -/
def Replica.submitted (r : Replica C) : List C.Hash :=
  (r.effects.filterMap Effect.request).map ValidateRequest.nodeHash

/-- At most one request is outstanding, and none was ever made twice. -/
def ValidatedOnce (r : Replica C) : Prop := r.valReqs.length ≤ 1 ∧ r.submitted.Nodup

/-- A move that leaves the worker and its slot alone. -/
structure SameWorker (r r' : Replica C) : Prop where
  pending : r'.rs.pendingValidation = r.rs.pendingValidation
  verdicts : r'.rs.validationResult = r.rs.validationResult
  queue : r'.valReqs = r.valReqs
  submitted : r'.submitted = r.submitted

section
variable {keys : Nat → Option C.Key} {arrives : Wire C → Prop} {w : Wiring C} {n : Nat}
  {r r' : Replica C}

theorem SameWorker.of_effects {new : List (Effect C)} (heff : r'.effects = r.effects ++ new)
    (hnone : new.filterMap Effect.request = [])
    (hp : r'.rs.pendingValidation = r.rs.pendingValidation)
    (hv : r'.rs.validationResult = r.rs.validationResult) (hq : r'.valReqs = r.valReqs) :
    SameWorker r r' := by
  refine ⟨hp, hv, hq, ?_⟩
  unfold Replica.submitted
  rw [heff, List.filterMap_append, hnone, List.append_nil]

theorem sameWorker_cast (w : Wiring C) (p : Phase) (nh : C.Hash) (r : Replica C) :
    SameWorker r (castVote w p nh r) := by
  rw [castVote_eq]
  refine .of_effects rfl ?_ rfl rfl rfl
  split <;> simp [Effect.request]

theorem sameWorker_enter (w : Wiring C) (v : Nat) (r : Replica C) :
    SameWorker r (enterNewView w v r) := by
  rw [enterNewView_eq]
  refine .of_effects rfl ?_ rfl rfl rfl
  split <;> simp [Effect.request]

theorem submitted_kick (leafHash : C.Hash) (node : Node C) (block : BlockRef C) (input : State)
    (r : Replica C) : (submitValidation leafHash node block input r).submitted =
      r.submitted ++ [leafHash] := by
  simp [Replica.submitted, submitValidation, Effect.request]

/-- What a move does to the worker: nothing, or it takes one answer in, or it
hands out one block. -/
theorem Move.worker_cases (hm : Move keys arrives w r r') : SameWorker r r' ∨
    (∃ k req input out, r.valReqs[k]? = some (req, input) ∧
      runValidation w.overflowChecks w.workload req input w.validator = .ok out ∧
      r' = { r with valReqs := r.valReqs.eraseIdx k }.withRs (ingestValidation out)) ∨
    ∃ leafHash node block input, r.rs.validationResult leafHash = none ∧
      r' = submitValidation leafHash node block input r := by
  cases hm with
  | ingest k req input out queued ran =>
    exact Or.inr (Or.inl ⟨k, req, input, out, queued, ran, rfl⟩)
  | kick leafHash node block input fresh idle found read cmd start =>
    exact Or.inr (Or.inr ⟨leafHash, node, block, input, fresh, rfl⟩)
  | receive ty p view qc =>
    rw [Replica.withRs, receiveQc_eq, stageQc_eq]
    exact Or.inl ⟨rfl, rfl, rfl, rfl⟩
  | enter timeout => exact Or.inl { sameWorker_enter w _ (r.withRs _) with }
  | propose newViews leaf =>
    exact Or.inl (.of_effects rfl (by simp [Effect.request]) rfl rfl rfl)
  | prepare leaf => exact Or.inl (sameWorker_cast w _ _ r)
  | certify p ord qc =>
    refine Or.inl (.of_effects rfl (by simp [Effect.request]) ?_ ?_ rfl)
    all_goals
      rw [emit_rs, withRs_rs, stageQc_eq]
      rfl
  | preCommit qc => exact Or.inl { sameWorker_cast w _ _ (r.withRs (holdPrepare qc)) with }
  | commit qc => exact Or.inl { sameWorker_cast w _ _ (r.withRs (holdLock qc)) with }
  | execute decided nh node r' known path found next valid applied =>
    obtain ⟨hrs, hqueue, heff⟩ := applyNode_frame applied
    refine Or.inl (.of_effects heff (by simp [Effect.request]) ?_ ?_ hqueue)
    all_goals rw [hrs]
  | _ => exact Or.inl ⟨rfl, rfl, rfl, rfl⟩

/-- The slot names a request that is still outstanding. -/
def Occupied (r : Replica C) : Prop :=
  ∀ h, r.rs.pendingValidation = some h → ∃ entry ∈ r.valReqs, entry.1.nodeHash = h

/-- The state of a worker that was handed one block at a time: its slot and its
queue agree, and whatever it was handed before is answered. -/
structure Serial (r : Replica C) : Prop where
  idle : r.rs.pendingValidation = none → r.valReqs = []
  busy : ∀ h, r.rs.pendingValidation = some h →
    (∃ req input, r.valReqs = [(req, input)] ∧ req.nodeHash = h) ∧
      r.rs.validationResult h = none
  answered : ∀ h ∈ r.submitted,
    (r.rs.validationResult h).isSome ∨ r.rs.pendingValidation = some h
  once : r.submitted.Nodup

theorem Occupied.move (h : Occupied r) (hm : Move keys arrives w r r') : Occupied r' := by
  rcases hm.worker_cases with hs | ⟨k, req, input, out, hk, hran, rfl⟩ |
    ⟨leafHash, node, block, input, _, rfl⟩
  · intro x hx
    rw [hs.pending] at hx
    rw [hs.queue]
    exact h x hx
  · intro x hx
    simp only [withRs_rs, ingestValidation, runValidation_nodeHash hran] at hx
    split at hx
    · cases hx
    · rename_i hother
      obtain ⟨entry, hmem, rfl⟩ := h x hx
      refine ⟨entry, ?_, rfl⟩
      -- the answer taken in is another request's
      obtain ⟨j, hj⟩ := List.mem_iff_getElem?.mp hmem
      have hjk : j ≠ k := by
        rintro rfl
        cases hk.symm.trans hj
        exact hother hx
      exact List.mem_eraseIdx_iff_getElem?.mpr ⟨j, hjk, hj⟩
  · intro x hx
    cases hx
    exact ⟨_, List.mem_append_right _ (List.mem_singleton_self _), rfl⟩

theorem Serial.ingest (h : Serial r) {k : Nat} {req : ValidateRequest C} {input : State}
    {out : ValidateOutcome C} (hk : r.valReqs[k]? = some (req, input))
    (hran : runValidation w.overflowChecks w.workload req input w.validator = .ok out) :
    Serial ({ r with valReqs := r.valReqs.eraseIdx k }.withRs (ingestValidation out)) := by
  obtain ⟨x, hx⟩ : ∃ x, r.rs.pendingValidation = some x := by
    cases hp : r.rs.pendingValidation with
    | none => rw [h.idle hp] at hk; cases hk
    | some x => exact ⟨x, rfl⟩
  obtain ⟨⟨req', input', hqueue, hreq⟩, _⟩ := h.busy x hx
  rw [hqueue] at hk
  have hzero : k = 0 := by
    by_contra hne
    obtain ⟨j, rfl⟩ := Nat.exists_eq_succ_of_ne_zero hne
    cases hk
  subst hzero
  cases hk
  have hslot : ({ r with valReqs := r.valReqs.eraseIdx 0 }.withRs
      (ingestValidation out)).rs.pendingValidation = none := by
    simp only [withRs_rs, ingestValidation, runValidation_nodeHash hran]
    rw [if_pos (hx.trans (congrArg some hreq.symm))]
  refine ⟨fun _ => by simp [hqueue], ?_, ?_, h.once⟩
  · intro y hy
    rw [hslot] at hy
    cases hy
  · intro y hy
    left
    simp only [withRs_rs, ingestValidation, runValidation_nodeHash hran, Function.update_apply]
    split
    · rfl
    · rename_i hne
      rcases h.answered y hy with hy | hy
      · exact hy
      · cases hx.symm.trans hy
        exact absurd hreq.symm hne

/-- A block handed to an idle worker is a new one: the old ones are answered. -/
theorem Serial.kick (h : Serial r) {leafHash : C.Hash} (hidle : r.rs.pendingValidation = none)
    (hfresh : r.rs.validationResult leafHash = none) (node : Node C) (block : BlockRef C)
    (input : State) : Serial (submitValidation leafHash node block input r) := by
  refine ⟨?_, ?_, ?_, ?_⟩
  · intro hp
    cases hp
  · rintro _ ⟨⟩
    refine ⟨⟨⟨leafHash, node.height, block.txsPath, block.proofPath, block.info.txsTotal⟩, input,
      ?_, rfl⟩, hfresh⟩
    change r.valReqs ++ _ = _
    rw [h.idle hidle, List.nil_append]
  · intro x hx
    rw [submitted_kick] at hx
    rcases List.mem_append.mp hx with hx | hx
    · rcases h.answered x hx with hx | hx
      · exact Or.inl hx
      · rw [hidle] at hx
        cases hx
    · cases List.mem_singleton.mp hx
      exact Or.inr rfl
  · rw [submitted_kick]
    apply List.Nodup.append h.once (List.nodup_singleton _)
    intro x hx hleaf
    cases List.mem_singleton.mp hleaf
    rcases h.answered _ hx with hx | hx
    · simp [hfresh] at hx
    · rw [hidle] at hx
      cases hx

theorem Serial.same (h : Serial r) (hs : SameWorker r r') : Serial r' := by
  obtain ⟨hp, hv, hq, hsub⟩ := hs
  refine ⟨?_, ?_, ?_, ?_⟩
  · rw [hp, hq]
    exact h.idle
  · rw [hp, hq, hv]
    exact h.busy
  · rw [hp, hv, hsub]
    exact h.answered
  · rw [hsub]
    exact h.once

theorem Serial.occupied (h : Serial r) : Occupied r := by
  intro x hx
  obtain ⟨⟨req, input, hqueue, hreq⟩, _⟩ := h.busy x hx
  exact ⟨(req, input), by simp [hqueue], hreq⟩

theorem Serial.validated_once (h : Serial r) : ValidatedOnce r := by
  refine ⟨?_, h.once⟩
  cases hp : r.rs.pendingValidation with
  | none => simp [h.idle hp]
  | some x =>
    obtain ⟨⟨req, input, hqueue, _⟩, _⟩ := h.busy x hp
    simp [hqueue]

theorem Serial.start : Serial (startProtocol w (bootReplica w n)) := by
  obtain ⟨hp, _, hq, hsub⟩ := sameWorker_enter w 1
    ((bootReplica w n).withRs (fun rs => { rs with view := 0 }))
  refine ⟨fun _ => hq, ?_, ?_, ?_⟩
  · intro x hx
    cases hp.symm.trans hx
  · intro x hx
    rw [startProtocol, hsub] at hx
    cases hx
  · rw [startProtocol, hsub]
    exact List.nodup_nil

/-- A request for a leaf is harmless while the worker is idle, and where the leaf
does not pass the checks on the way to the worker. -/
def Harmless (w : Wiring C) (r : Replica C) (leafHash : C.Hash) : Prop :=
  r.rs.pendingValidation = none ∨ ∀ node block input, ¬ Kickable w r leafHash node block input

theorem Serial.maybe_kick (h : Serial r) {leafHash : C.Hash} (hl : Harmless w r leafHash)
    (hk : maybeKickValidation w leafHash r = .ok r') : Serial r' := by
  rcases kick_cases hk with ⟨rfl, _⟩ | ⟨node, block, input, hready, rfl⟩
  · exact h
  · rcases hl with hidle | hnot
    · exact h.kick hidle hready.fresh node block input
    · exact absurd hready (hnot node block input)

/-- The node is known, and on the way back from a decided one. -/
def OnBranch (r : Replica C) (h : C.Hash) (node : Node C) : Prop :=
  r.rs.tree.get? h = some node ∧ ∃ d, (r.rs.decidedNodes.get? d).isSome ∧
    ReflTransGen (TreeLink r.rs.tree) d h

/-- The execution has nothing to wait for but what is in flight: the decided nodes
and their ancestors are one of each height, and while a validation is in flight each
of them that is not executed yet has a result, is the one in flight or comes after it. -/
structure InStep (r : Replica C) : Prop where
  line : ∀ h h' node node', OnBranch r h node → OnBranch r h' node' →
    asI64 node.height = asI64 node'.height → h = h'
  flight : ∀ x, r.rs.pendingValidation = some x → ∀ h node, OnBranch r h node →
    r.rs.lastExecutedHeight < asI64 node.height →
    (r.rs.validationResult h).isSome ∨ h = x ∨ ∃ before, OnBranch r x before ∧
      r.rs.lastExecutedHeight < asI64 before.height ∧ asI64 before.height < asI64 node.height

/-- How far the execution has come that started in state `r₀`: every node it has
passed has a result, and the one it has handed out, if any, is the next one. -/
structure Executing (r₀ r : Replica C) : Prop where
  tree : r.rs.tree = r₀.rs.tree
  verdicts : r.rs.validationResult = r₀.rs.validationResult
  last : r₀.rs.lastExecutedHeight ≤ r.rs.lastExecutedHeight
  serial : Serial r
  passed : ∀ h node, OnBranch r₀ h node → r₀.rs.lastExecutedHeight < asI64 node.height →
    asI64 node.height ≤ r.rs.lastExecutedHeight → (r₀.rs.validationResult h).isSome
  slot : r.rs.pendingValidation = r₀.rs.pendingValidation ∨
    ∃ h node, r.rs.pendingValidation = some h ∧ OnBranch r₀ h node ∧
      r₀.rs.validationResult h = none ∧ asI64 node.height = r.rs.lastExecutedHeight + 1

variable {r₀ : Replica C} {nh d : C.Hash} {node : Node C} {chain hashes : List C.Hash}

/-- The next node on the branch is handed out only to an idle worker. -/
theorem Executing.harmless (h : Executing r₀ r) (hin : InStep r₀) (hb : OnBranch r₀ nh node)
    (hnext : asI64 node.height = r.rs.lastExecutedHeight + 1) : Harmless w r nh := by
  have hlast := h.last
  by_contra hnot
  obtain ⟨hbusy, hready⟩ := not_or.mp hnot
  obtain ⟨x, hx⟩ := Option.ne_none_iff_exists'.mp hbusy
  simp only [not_forall, not_not] at hready
  obtain ⟨_, _, _, hready⟩ := hready
  have hfresh : r₀.rs.validationResult nh = none := h.verdicts ▸ hready.fresh
  rcases h.slot with hsame | ⟨y, first, hy, hbranch, _, hheight⟩
  · rcases hin.flight x (hsame ▸ hx) nh node hb (by omega) with hdone | rfl |
      ⟨before, hbx, hlow, hlt⟩
    · simp [hfresh] at hdone
    · exact hready.idle hx
    · -- the validation in flight is of a node that the execution cannot have passed
      have hdone := h.passed x before hbx hlow (by omega)
      have hopen := (h.serial.busy x hx).2
      rw [h.verdicts] at hopen
      simp [hopen] at hdone
  · obtain rfl := hin.line nh y node first hb hbranch (by omega)
    exact hready.idle hy

theorem Executing.kick (h : Executing r₀ r) (hin : InStep r₀) (hb : OnBranch r₀ nh node)
    (hnext : asI64 node.height = r.rs.lastExecutedHeight + 1)
    (hk : maybeKickValidation w nh r = .ok r') : Executing r₀ r' := by
  have hserial := h.serial.maybe_kick (h.harmless hin hb hnext) hk
  rcases kick_cases hk with ⟨rfl, _⟩ | ⟨node', block, input, hready, rfl⟩
  · exact h
  · refine ⟨h.tree, h.verdicts, h.last, hserial, h.passed, Or.inr ⟨nh, node, rfl, hb, ?_, hnext⟩⟩
    rw [← h.verdicts]
    exact hready.fresh

theorem Executing.apply (h : Executing r₀ r) (hin : InStep r₀) (hb : OnBranch r₀ nh node)
    (hnext : asI64 node.height = r.rs.lastExecutedHeight + 1)
    (hvalid : r.rs.validationResult nh = some true) (happ : applyNode nh node r = .ok r') :
    Executing r₀ r' := by
  have hlast := h.last
  obtain ⟨hrs, hqueue, heff⟩ := applyNode_frame happ
  have hdone : (r₀.rs.validationResult nh).isSome := by
    rw [← h.verdicts, hvalid]
    rfl
  have hsame : SameWorker r r' := by
    refine .of_effects heff (by simp [Effect.request]) ?_ ?_ hqueue
    all_goals rw [hrs]
  have hreached : r'.rs.lastExecutedHeight = asI64 node.height := by rw [hrs]
  refine ⟨by rw [hrs]; exact h.tree, hsame.verdicts.trans h.verdicts, by omega,
    h.serial.same hsame, ?_, Or.inl (hsame.pending.trans ?_)⟩
  · intro x above hx hlow hhigh
    by_cases hold : asI64 above.height ≤ r.rs.lastExecutedHeight
    · exact h.passed x above hx hlow hold
    · obtain rfl := hin.line x nh above node hx hb (by omega)
      exact hdone
  · rcases h.slot with hsame | ⟨y, first, _, hbranch, hopen, hheight⟩
    · exact hsame
    · obtain rfl := hin.line nh y node first hb hbranch (by omega)
      simp [hopen] at hdone

theorem Executing.nodes (h : Executing r₀ r) (hin : InStep r₀)
    (hd : (r₀.rs.decidedNodes.get? d).isSome)
    (hl : ∀ x ∈ chain, ReflTransGen (TreeLink r₀.rs.tree) d x)
    (hrun : executeChain w chain r = .ok r') : Executing r₀ r' := by
  induction chain generalizing r with
  | nil => cases hrun; exact h
  | cons nh rest ih =>
    unfold executeChain at hrun
    split at hrun
    · cases hrun
    rename_i node hnode
    have hb : OnBranch r₀ nh node := ⟨h.tree ▸ hnode, d, hd, hl nh (by simp)⟩
    split at hrun
    · cases hrun; exact h
    rename_i hnext
    have hnext := not_not.mp hnext
    split at hrun
    · cases hrun; exact h
    · exact h.kick hin hb hnext hrun
    · rename_i hvalid
      obtain ⟨mid, happ, hrest⟩ := bind_ok.mp hrun
      exact ih (h.apply hin hb hnext hvalid happ) (fun x hx => hl x (by simp [hx])) hrest

theorem Executing.tryChain (h : Executing r₀ r) (hin : InStep r₀)
    (hd : (r₀.rs.decidedNodes.get? d).isSome) (hrun : tryExecuteChain w d r = .ok r') :
    Executing r₀ r' := by
  unfold tryExecuteChain at hrun
  split at hrun
  · cases hrun
  · rename_i chain hwalk
    refine h.nodes hin hd (fun x hx => ?_) hrun
    rw [h.tree] at hwalk
    exact walk_linked hwalk (by simp) .refl x (List.mem_reverse.mp hx)

theorem Executing.all (h : Executing r₀ r) (hin : InStep r₀)
    (hd : ∀ x ∈ hashes, (r₀.rs.decidedNodes.get? x).isSome)
    (hrun : executeDecided w hashes r = .ok r') : Executing r₀ r' := by
  induction hashes generalizing r with
  | nil => cases hrun; exact h
  | cons nh rest ih =>
    obtain ⟨mid, hfirst, hrest⟩ := bind_ok.mp hrun
    exact ih (h.tryChain hin (hd nh (by simp)) hfirst) (fun x hx => hd x (by simp [hx])) hrest

theorem Serial.executing (h : Serial r) : Executing r r :=
  ⟨rfl, rfl, le_rfl, h, fun _ _ _ hlow hhigh => absurd hhigh (by omega), Or.inl rfl⟩

theorem Serial.leaves (h : Serial r) (hrun : kickLeaves w hashes r = .ok r') : Serial r' := by
  induction hashes generalizing r with
  | nil => cases hrun; exact h
  | cons nh rest ih =>
    unfold kickLeaves at hrun
    split at hrun
    · cases hrun; exact h
    · rename_i hidle
      obtain ⟨mid, hfirst, hrest⟩ := bind_ok.mp hrun
      exact ih (h.maybe_kick (Or.inl (Option.not_isSome_iff_eq_none.mp hidle)) hfirst) hrest

/-- A leaf that the leader of the view may come to propose. -/
structure MayPropose (w : Wiring C) (r : Replica C) (leaf : Node C) (high : Option (QC C)) :
    Prop where
  leader : r.rs.leaderFor r.rs.view = w.myId
  unsent : (r.rs.viewData r.rs.view).broadcastProposal = false
  enough : r.rs.quorum ≤ (r.rs.viewData (r.rs.view - 1)).newViewMsgs.size
  certified : ∃ newViews : List (Nat × Option (QC C)),
    newViews.Perm (r.rs.viewData (r.rs.view - 1)).newViewMsgs.entries ∧ high = highQc newViews
  parent : leaf.parent = expectedParent high
  height : newHeight w r.rs high = .ok (some leaf.height)

/-- What may come to a node, as it stands, without two validations at a time: no leaf
is proposed that could be handed out while another one is in flight, and the
execution of what is decided waits for nothing else. -/
def Unhurried (w : Wiring C) (m : Machine C) : Option (Event C) → Prop
  | some (.message (.proposal view leaf high _)) =>
      Harmless w (m.replica.withRs (stashProposal view leaf high)) (nodeHash leaf)
  | some _ => True
  | none =>
    (m.todo.head? = some .leaderPrepare → ∀ leaf high, MayPropose w m.replica leaf high →
      Harmless w (sendProposal w leaf high m.replica) (nodeHash leaf)) ∧
    (m.todo.head? = some .replicaDecide → ∀ qc, m.replica.rs.staged .commit m.replica.rs.view =
      some qc → InStep (m.replica.withRs (fun rs =>
        { rs with decidedNodes := rs.decidedNodes.insert qc.nodeHash () }))) ∧
    (m.todo.head? = some .retryPendingExecute → InStep m.replica)

/-- A message other than a proposal is nothing to the worker. -/
theorem message_worker {msg : Wire C} (hmsg : ∀ view leaf high sender,
    msg ≠ .proposal view leaf high sender) (h : handleMsg keys w r msg = .ok r') :
    SameWorker r r' := by
  have hrefl : SameWorker r r := ⟨rfl, rfl, rfl, rfl⟩
  cases msg with
  | hello => cases h; exact hrefl
  | proposal view leaf high sender => exact absurd rfl (hmsg view leaf high sender)
  | phaseQc ty view qc sender =>
    simp only [handleMsg, handlePhaseQc] at h
    split at h
    · cases h; exact hrefl
    split at h
    · cases h; exact hrefl
    split at h
    · cases h; exact hrefl
    split at h
    · cases h; exact hrefl
    cases h
    rw [Replica.withRs, receiveQc_eq, stageQc_eq]
    exact ⟨rfl, rfl, rfl, rfl⟩
  | vote ty view nh voter sig =>
    simp only [handleMsg, handleVote] at h
    split at h
    · cases h; exact hrefl
    split at h
    · cases h; exact hrefl
    split at h
    · cases h; exact hrefl
    · cases h; exact ⟨rfl, rfl, rfl, rfl⟩
  | newView view justify sender =>
    simp only [handleMsg, handleNewView] at h
    split at h
    · cases h
    split at h
    · cases h; exact hrefl
    split at h
    · cases h; exact hrefl
    · cases h; exact ⟨rfl, rfl, rfl, rfl⟩

theorem Serial.event (h : Serial r) {ev : Event C} (hu : Unhurried w ⟨r, []⟩ (some ev))
    (hran : handleEvent keys w r ev = .ok r') : Serial r' := by
  cases ev with
  | message msg =>
    by_cases hmsg : ∀ view leaf high sender, msg ≠ .proposal view leaf high sender
    · exact h.same (message_worker hmsg hran)
    · simp only [not_forall, not_not] at hmsg
      obtain ⟨view, leaf, high, sender, rfl⟩ := hmsg
      rcases proposal_cases hran with rfl | ⟨_, _, _, hkick⟩
      · exact h
      · have hstash : SameWorker r (r.withRs (stashProposal view leaf high)) :=
          ⟨rfl, rfl, rfl, rfl⟩
        exact (h.same hstash).maybe_kick hu hkick
  | timer view =>
    rcases timer_inv hran with ⟨rfl, _⟩ | ⟨timeout, next, _, _, rfl⟩
    · exact h
    · exact h.same { sameWorker_enter w next (r.withRs _) with }
  | validated k =>
    simp only [handleEvent] at hran
    split at hran
    · cases hran; exact h
    · rename_i req input hk
      obtain ⟨out, hvalidated, rfl⟩ := map_ok.mp hran
      exact h.ingest hk hvalidated

theorem certify_worker {p : Phase} {ord : Order} (h : leaderQc p w ord r = .ok r') :
    SameWorker r r' := by
  rcases leader_qc_cases h with ⟨rfl, _⟩ | ⟨qc, _, _, _, rfl⟩
  · exact ⟨rfl, rfl, rfl, rfl⟩
  · refine .of_effects rfl (by simp [Effect.request]) ?_ ?_ rfl
    all_goals
      rw [emit_rs, withRs_rs, stageQc_eq]
      rfl

theorem vote_worker {p next : Phase} {hold : QC C → ReplicaState C → ReplicaState C}
    (hhold : ∀ qc r, SameWorker r (r.withRs (hold qc)))
    (h : replicaVote p next hold w r = .ok r') : SameWorker r r' := by
  rcases replica_vote_cases h with ⟨rfl, _⟩ | ⟨qc, _, _, _, rfl⟩
  · exact ⟨rfl, rfl, rfl, rfl⟩
  · obtain ⟨hp, hv, hq, hs⟩ := hhold qc r
    obtain ⟨hp', hv', hq', hs'⟩ := sameWorker_cast w next qc.nodeHash (r.withRs (hold qc))
    exact ⟨hp'.trans hp, hv'.trans hv, hq'.trans hq, hs'.trans hs⟩

theorem Serial.rule (h : Serial r) {ord : Order} {rule : Rule} {rest : List Rule}
    (hu : Unhurried w ⟨r, rule :: rest⟩ none) (hran : rule.run w ord r = .ok r') : Serial r' := by
  obtain ⟨hpropose, hdecide, hretry⟩ := hu
  cases rule with
  | leaderPrepare =>
    rcases leader_prepare_cases hran with ⟨rfl, _⟩ | ⟨newViews, leaf, block, hread, hleader, honce,
      henough, hparent, hheight, _, _, _, hkick⟩
    · exact h
    have hperm := ord.perm .newViewMsgs (r.rs.viewData (r.rs.view - 1)).newViewMsgs.entries
    have hmay : MayPropose w r leaf (highQc newViews) := by
      refine ⟨hleader, honce, ?_, ⟨newViews, hread ▸ hperm, rfl⟩, hparent, hheight⟩
      rw [hread, hperm.length_eq] at henough
      exact henough
    have hsent : SameWorker r (sendProposal w leaf (highQc newViews) r) :=
      .of_effects rfl (by simp [Effect.request]) rfl rfl rfl
    exact (h.same hsent).maybe_kick (hpropose rfl leaf _ hmay) hkick
  | replicaPrepare =>
    rcases replica_prepare_cases hran with ⟨rfl, _⟩ | rfl | ⟨leaf, high, _, _, _, _, rfl⟩
    · exact h
    · exact h.same ⟨rfl, rfl, rfl, rfl⟩
    · exact h.same (sameWorker_cast w _ _ r)
  | leaderPreCommit => exact h.same (certify_worker (p := .prepare) hran)
  | replicaPreCommit => exact h.same (vote_worker (fun _ _ => ⟨rfl, rfl, rfl, rfl⟩) hran)
  | leaderCommit => exact h.same (certify_worker (p := .preCommit) hran)
  | replicaCommit => exact h.same (vote_worker (fun _ _ => ⟨rfl, rfl, rfl, rfl⟩) hran)
  | leaderDecide => exact h.same (certify_worker (p := .commit) hran)
  | replicaDecide =>
    rcases replica_decide_inv hran with ⟨rfl, _⟩ | ⟨qc, mid, next, _, hqc, hexec, _, _, _, rfl⟩
    · exact h
    have hdecided : SameWorker r (r.withRs (fun rs =>
        { rs with decidedNodes := rs.decidedNodes.insert qc.nodeHash () })) := ⟨rfl, rfl, rfl, rfl⟩
    have hmid := ((h.same hdecided).executing.tryChain (hdecide rfl qc hqc) (by simp) hexec).serial
    exact hmid.same { sameWorker_enter w next (mid.withRs _) with }
  | retryPendingExecute =>
    refine (h.executing.all (hretry rfl) (fun x hx => ?_) hran).serial
    exact EntryMap.mem_keys.mp ((ord.perm _ _).mem_iff.mp hx)
  | tryKickPendingValidations => exact h.leaves hran

/-- The runs of a node to which nothing comes in a hurry. -/
inductive Machine.UnhurriedReach (w : Wiring C) (n : Nat) : Machine C → Prop
  | start : UnhurriedReach w n (.start w n)
  | step {m m' : Machine C} (keys : Nat → Option C.Key) (ev : Option (Event C)) :
      UnhurriedReach w n m → Unhurried w m ev → Machine.Step keys w ev m m' →
      UnhurriedReach w n m'

theorem Serial.step {ev : Option (Event C)} {m m' : Machine C} (h : Serial m.replica)
    (hu : Unhurried w m ev) (hs : Machine.Step keys w ev m m') : Serial m'.replica := by
  cases hs with
  | event ev r r' running ran => exact h.event hu ran
  | rule ord rule rest r r' ran => exact h.rule hu ran

theorem unhurried_serial {m : Machine C} (hr : Machine.UnhurriedReach w n m) :
    Serial m.replica := by
  induction hr with
  | start => exact .start
  | step keys ev _ hu hs ih => exact ih.step hu hs

/-- A leaf that is handed out while another one is in flight makes two. -/
theorem Serial.overtaken (h : Serial r) {leafHash : C.Hash} (hl : ¬ Harmless w r leafHash)
    (hk : maybeKickValidation w leafHash r = .ok r') : ¬ ValidatedOnce r' := by
  obtain ⟨hbusy, hready⟩ := not_or.mp hl
  obtain ⟨x, hx⟩ := Option.ne_none_iff_exists'.mp hbusy
  obtain ⟨⟨req, input, hqueue, _⟩, _⟩ := h.busy x hx
  rcases kick_cases hk with ⟨rfl, hnot⟩ | ⟨node, block, input', _, rfl⟩
  · exact absurd hnot hready
  · rintro ⟨hlen, _⟩
    have htwo : (r.valReqs ++ [((⟨leafHash, node.height, block.txsPath, block.proofPath,
      block.info.txsTotal⟩ : ValidateRequest C), input')]).length ≤ 1 := hlen
    simp [hqueue] at htwo

/-- Each block is validated once, as long as no leaf is proposed that could be handed
out while another one is in flight and the execution waits for nothing else. For a
proposal from outside that passes the handler's checks the condition is exact. -/
theorem blocks_validated_once {m : Machine C} (hr : Machine.UnhurriedReach w n m) :
    ValidatedOnce m.replica ∧ ∀ keys view leaf high sender m',
      Machine.Step keys w (some (.message (.proposal view leaf high sender))) m m' →
      sender = m.replica.rs.leaderFor view →
      verifyJustify high m.replica.rs.quorum keys = true → leaf.parent = expectedParent high →
      (ValidatedOnce m'.replica ↔
        Unhurried w m (some (.message (.proposal view leaf high sender)))) := by
  have hserial := unhurried_serial hr
  refine ⟨hserial.validated_once, ?_⟩
  intro keys view leaf high sender m' hstep hleader hsigs hparent
  constructor
  · intro honce
    cases hstep with
    | event ev r r' running ran =>
      have hkick : maybeKickValidation w (nodeHash leaf)
          (r.withRs (stashProposal view leaf high)) = .ok r' := by
        simpa [handleEvent, handleMsg, handleProposal, hleader, hsigs, hparent] using ran
      have hstash : SameWorker r (r.withRs (stashProposal view leaf high)) := ⟨rfl, rfl, rfl, rfl⟩
      by_contra hnot
      exact (hserial.same hstash).overtaken hnot hkick honce
  · intro hu
    exact (hserial.step hu hstep).validated_once

end

namespace Quartet

/-- A leaf of height 1 that names genesis as its parent. -/
def stray : Node crypto := ⟨.inl 0, .inr [], 1⟩

/-- The byzantine leader of view 4 proposes one leaf, another, and the first
again to node 1. -/
def repeated : List (Nat × Option (Event crypto)) :=
  [(1, none), (1, some (.message (.proposal 4 first none 3))),
    (1, some (.message (.proposal 4 stray none 3))),
    (1, some (.message (.proposal 4 first none 3)))]

end Quartet

theorem block_submitted_twice : ∃ s : System Quartet.crypto,
    System.Reach Quartet.cluster Quartet.cluster.Authentic s ∧
      Machine.Reach (Quartet.cluster.wiring 1) 4 (s 1) ∧ (s 1).replica.valReqs.length = 3 ∧
      (s 1).replica.submitted =
        [nodeHash Quartet.first, nodeHash Quartet.stray, nodeHash Quartet.first] := by
  have hplay : (System.play Quartet.cluster Quartet.cluster.Authentic Quartet.repeated
      (System.start Quartet.cluster)).any (fun s => (s 1).replica.valReqs.length == 3 &&
        (s 1).replica.submitted ==
          [nodeHash Quartet.first, nodeHash Quartet.stray, nodeHash Quartet.first]) = true := by
    decide +kernel
  obtain ⟨s, hr, hc⟩ := play_exists hplay
  obtain ⟨hlen, hsub⟩ := Bool.and_eq_true_iff.mp hc
  exact ⟨s, hr, hr.machine 1, by simpa using hlen, by simpa using hsub⟩

/-- Nothing that comes next can be in a hurry: the nodes in the tree are one of each
height, and while a validation is in flight no leaf comes up and the other nodes are
executed or have a result. -/
def Machine.Leisurely (w : Wiring C) (m : Machine C) (ev : Option (Event C)) : Prop :=
  (∀ e ∈ m.replica.rs.tree.entries, ∀ e' ∈ m.replica.rs.tree.entries,
    asI64 e.2.height = asI64 e'.2.height → e.1 = e'.1) ∧
  (m.replica.rs.pendingValidation = none ∨
    (ev.bind Event.wire).bind Wire.proposed = none ∧
    (m.replica.rs.leaderFor m.replica.rs.view ≠ w.myId ∨
      (m.replica.rs.viewData m.replica.rs.view).broadcastProposal = true ∨
      (m.replica.rs.viewData (m.replica.rs.view - 1)).newViewMsgs.size < m.replica.rs.quorum) ∧
    ∀ e ∈ m.replica.rs.tree.entries, m.replica.rs.lastExecutedHeight < asI64 e.2.height →
      (m.replica.rs.validationResult e.1).isSome ∨ m.replica.rs.pendingValidation = some e.1)

instance (w : Wiring C) (m : Machine C) (ev : Option (Event C)) :
    Decidable (m.Leisurely w ev) :=
  inferInstanceAs (Decidable (_ ∧ _))

section
variable {keys : Nat → Option C.Key} {w : Wiring C} {n : Nat} {m m' : Machine C}
  {ev : Option (Event C)}

theorem Machine.Leisurely.inStep (h : m.Leisurely w ev) (decided : EntryMap C.Hash Unit) :
    InStep (m.replica.withRs (fun rs => { rs with decidedNodes := decided })) := by
  obtain ⟨hheights, hflight⟩ := h
  have hmem : ∀ {h node}, OnBranch (m.replica.withRs (fun rs =>
      { rs with decidedNodes := decided })) h node → (h, node) ∈ m.replica.rs.tree.entries :=
    fun hb => EntryMap.get?_eq_some.mp hb.1
  refine ⟨?_, ?_⟩
  · intro h h' node node' hb hb' he
    exact hheights _ (hmem hb) _ (hmem hb') he
  · intro x hx h node hb hlast
    rcases hflight with hidle | ⟨_, _, hrest⟩
    · cases hidle.symm.trans hx
    · rcases hrest _ (hmem hb) hlast with hdone | hsame
      · exact Or.inl hdone
      · exact Or.inr (Or.inl (Option.some.inj (hsame.symm.trans hx)))

theorem Machine.Leisurely.unhurried (h : m.Leisurely w ev) : Unhurried w m ev := by
  have hstep := h.inStep
  obtain ⟨_, hidle | ⟨hnone, hwait, _⟩⟩ := h
  · cases ev with
    | none => exact ⟨fun _ _ _ _ => Or.inl hidle, fun _ _ _ => hstep _, fun _ => hstep _⟩
    | some ev =>
      cases ev with
      | message msg =>
        cases msg with
        | proposal => exact Or.inl hidle
        | _ => trivial
      | _ => trivial
  · cases ev with
    | none =>
      refine ⟨fun _ leaf high hmay => ?_, fun _ _ _ => hstep _, fun _ => hstep _⟩
      rcases hwait with hother | hsent | hfew
      · exact absurd hmay.leader hother
      · simp [hmay.unsent] at hsent
      · exact absurd hmay.enough (Nat.not_le_of_lt hfew)
    | some ev =>
      cases ev with
      | message msg =>
        cases msg with
        | proposal => cases hnone
        | _ => trivial
      | _ => trivial

/-- Step by step along a run in which nothing is in a hurry. -/
def Machine.stroll (keys : Nat → Option C.Key) (w : Wiring C) (m : Machine C) :
    Option (Event C) → Option (Machine C)
  | none => if m.Leisurely w none then m.advance w .asStored else none
  | some ev => if m.Leisurely w (some ev) then m.consume keys w ev else none

theorem stroll_unhurried (hr : Machine.UnhurriedReach w n m)
    (h : m.stroll keys w ev = some m') : Machine.UnhurriedReach w n m' := by
  cases ev with
  | none =>
    obtain ⟨hl, h⟩ := Option.ite_none_right_eq_some.mp h
    exact hr.step keys none hl.unhurried (advance_step h)
  | some ev =>
    obtain ⟨hl, h⟩ := Option.ite_none_right_eq_some.mp h
    exact hr.step keys (some ev) hl.unhurried (consume_step h)

end

/-- Node 1 is proposed the first block and proposes the second one itself, and has the
outcomes of both. -/
theorem quartet_hands_out : ∃ m : Machine Quartet.crypto,
    Machine.UnhurriedReach (Quartet.cluster.wiring 1) 4 m ∧
      m.replica.submitted = [nodeHash Quartet.first, nodeHash Quartet.second] ∧
      m.replica.rs.validationResult (nodeHash Quartet.second) = some true ∧
      ValidatedOnce m.replica := by
  have hrun : (follow (Machine.stroll Quartet.cluster.peerKeys (Quartet.cluster.wiring 1))
      (.start (Quartet.cluster.wiring 1) 4) ((Quartet.bothBlocks.filter (fun turn =>
        turn.1 = 1)).flatMap (fun turn => turn.2.toList.map some ++ List.replicate 10 none))).any
      (fun m => decide (m.replica.submitted = [nodeHash Quartet.first, nodeHash Quartet.second] ∧
        m.replica.rs.validationResult (nodeHash Quartet.second) = some true)) = true := by
    decide +kernel
  obtain ⟨m, hm, hc⟩ := Option.any_eq_true _ _ |>.mp hrun
  obtain ⟨hsub, hvalid⟩ := of_decide_eq_true hc
  have hr : Machine.UnhurriedReach (Quartet.cluster.wiring 1) 4 m :=
    follow_invariant (P := fun _ m => Machine.UnhurriedReach (Quartet.cluster.wiring 1) 4 m)
      .start (fun _ _ _ _ h hs => stroll_unhurried h hs) hm
  exact ⟨m, hr, hsub, hvalid, (blocks_validated_once hr).1⟩

end ZkStf
