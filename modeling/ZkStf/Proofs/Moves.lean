import Mathlib.Logic.Relation
import ZkStf.Proofs.Frames

namespace ZkStf
open ZkStf.Basis
open ZkStf.Basis.Ballots (Phase)
open Relation (ReflTransGen)
variable {C : Crypto}

theorem bind_ok {x : Except ε α} {f : α → Except ε β} {b : β} :
    x.bind f = .ok b ↔ ∃ a, x = .ok a ∧ f a = .ok b := by
  cases x <;> simp [Except.bind]

theorem map_ok {x : Except ε α} {f : α → β} {b : β} :
    x.map f = .ok b ↔ ∃ a, x = .ok a ∧ f a = b := by
  cases x <;> simp [Except.map]

/-- One parent link, read off a tree. -/
def TreeLink (tree : EntryMap C.Hash (Node C)) (a b : C.Hash) : Prop :=
  ∃ node, tree.get? a = some node ∧ node.parent = b

/-- The moves a node is made of. Each is one update of the node's state with
everything the code has checked before it; `arrives` tells which messages the
network lets through at that moment. -/
inductive Move (keys : Nat → Option C.Key) (arrives : Wire C → Prop) (w : Wiring C)
    (r : Replica C) : Replica C → Prop
  | stash (view : Nat) (node : Node C) (justify : Option (QC C)) (sender : Nat)
      (arrived : arrives (.proposal view node justify sender))
      (leader : sender = r.rs.leaderFor view)
      (sigs : verifyJustify justify r.rs.quorum keys = true)
      (parent : node.parent = expectedParent justify) :
      Move keys arrives w r (r.withRs (stashProposal view node justify))
  | receive (ty : MsgType) (p : Phase) (view : Nat) (qc : QC C) (sender : Nat)
      (arrived : arrives (.phaseQc ty view qc sender))
      (leader : sender = r.rs.leaderFor view) (phase : certifiedPhase ty = some p)
      (type : qc.msgType = msgTypeOf p) (same : qc.view = view)
      (sigs : verifyQc qc r.rs.quorum keys = true) :
      Move keys arrives w r (r.withRs (receiveQc p view qc))
  | count (ty : MsgType) (p : Phase) (view : Nat) (nh : C.Hash) (voter : Nat) (sig : C.Sig)
      (arrived : arrives (.vote ty view nh voter sig))
      (leader : r.rs.leaderFor view = w.myId) (phase : votedPhase ty = some p)
      (signed : voter = w.myId ∨
        ∃ pk, keys voter = some pk ∧ verifyVoteSig pk ty view nh sig = true) :
      Move keys arrives w r (r.withRs (recordVote p view voter nh sig))
  | collect (view : Nat) (justify : Option (QC C)) (sender next : Nat)
      (arrived : arrives (.newView view justify sender))
      (added : addOne w view = .ok next) (leader : r.rs.leaderFor next = w.myId)
      (sigs : verifyJustify justify r.rs.quorum keys = true) :
      Move keys arrives w r (r.withRs (recordNewView view sender justify))
  | ingest (k : Nat) (req : ValidateRequest C) (input : State) (out : ValidateOutcome C)
      (queued : r.valReqs[k]? = some (req, input))
      (ran : runValidation w.overflowChecks w.workload req input w.validator = .ok out) :
      Move keys arrives w r
        ({ r with valReqs := r.valReqs.eraseIdx k }.withRs (ingestValidation out))
  | enter (timeout : Nat) :
      Move keys arrives w r (enterNewView w (r.rs.view + 1) (r.withRs (fun rs =>
        { rs with timeoutIntervalMs := timeout })))
  | propose (newViews : List (Nat × Option (QC C))) (leaf : Node C)
      (leader : r.rs.leaderFor r.rs.view = w.myId)
      (once : (r.rs.vd r.rs.view).broadcastProposal = false)
      (read : newViews.Perm (r.rs.vd (r.rs.view - 1)).newViewMsgs.entries)
      (enough : r.rs.quorum ≤ newViews.length)
      (parent : leaf.parent = expectedParent (highQc newViews))
      (height : newHeight w r.rs (highQc newViews) = .ok (some leaf.height))
      (inRange : leaf.height.toNat < w.workload.manifest.numBlocks.toNat)
      (block : ∃ b, w.workload.block leaf.height = .ok b ∧ b.cmd = leaf.cmd) :
      Move keys arrives w r (sendProposal w leaf (highQc newViews) r)
  | skip : Move keys arrives w r (skipPrepare r)
  | prepare (leaf : Node C) (high : Option (QC C))
      (proposal : (r.rs.vd r.rs.view).proposal = some (leaf, high))
      (once : (r.rs.vd r.rs.view).voted .prepare = false)
      (valid : r.rs.validationResult (nodeHash leaf) = some true)
      (safe : safeNode leaf high r.rs.lockedQc r.rs.tree = true) :
      Move keys arrives w r (castVote w .prepare (nodeHash leaf) r)
  | certify (p : Phase) (ord : Order) (qc : QC C)
      (leader : r.rs.leaderFor r.rs.view = w.myId)
      (formed : formQc ord ((r.rs.vd r.rs.view).votes p) (msgTypeOf p) r.rs.view
        r.rs.quorum = some qc) :
      Move keys arrives w r ((r.withRs (fun rs => stageQc p rs.view qc (rs.vdMut rs.view (fun d =>
        { d with broadcast := Function.update d.broadcast p true })))).emit
          (.broadcast (.phaseQc (announcedBy p) r.rs.view qc w.myId)))
  | preCommit (qc : QC C) (seen : (r.rs.vd r.rs.view).seen .prepare = true)
      (once : (r.rs.vd r.rs.view).voted .preCommit = false)
      (staged : r.rs.staged .prepare r.rs.view = some qc) :
      Move keys arrives w r (castVote w .preCommit qc.nodeHash (r.withRs (holdPrepare qc)))
  | commit (qc : QC C) (seen : (r.rs.vd r.rs.view).seen .preCommit = true)
      (once : (r.rs.vd r.rs.view).voted .commit = false)
      (staged : r.rs.staged .preCommit r.rs.view = some qc) :
      Move keys arrives w r (castVote w .commit qc.nodeHash (r.withRs (holdLock qc)))
  | decide (qc : QC C) (staged : r.rs.staged .commit r.rs.view = some qc) :
      Move keys arrives w r (r.withRs (fun rs =>
        { rs with decidedNodes := rs.decidedNodes.insert qc.nodeHash () }))
  | execute (decided nh : C.Hash) (node : Node C) (r' : Replica C)
      (known : (r.rs.decidedNodes.get? decided).isSome)
      (path : ReflTransGen (TreeLink r.rs.tree) decided nh)
      (found : r.rs.tree.get? nh = some node)
      (next : asI64 node.height = r.rs.lastExecutedHeight + 1)
      (valid : r.rs.validationResult nh = some true)
      (applied : applyNode nh node r = .ok r') : Move keys arrives w r r'
  | kick (leafHash : C.Hash) (node : Node C) (block : BlockRef C) (input : State)
      (fresh : r.rs.validationResult leafHash = none)
      (idle : r.rs.pendingValidation ≠ some leafHash)
      (found : r.rs.tree.get? leafHash = some node)
      (read : w.workload.block node.height = .ok block) (cmd : block.cmd = node.cmd)
      (start : inputState r node = some input) :
      Move keys arrives w r (submitValidation leafHash node block input r)

abbrev Moves (keys : Nat → Option C.Key) (arrives : Wire C → Prop) (w : Wiring C) :
    Replica C → Replica C → Prop :=
  ReflTransGen (Move keys arrives w)

theorem moves_invariant {P : Replica C → Prop}
    (hs : ∀ r r', P r → Move keys arrives w r r' → P r') (hm : Moves keys arrives w r r')
    (h : P r) : P r' := by
  induction hm with
  | refl => exact h
  | tail _ hm ih => exact hs _ _ ih hm

/-- What a pass does apart from the votes: execute a node on the path of a
decided one, or hand a block to the worker. -/
inductive Chore (w : Wiring C) (r : Replica C) : Replica C → Prop
  | execute (decided nh : C.Hash) (node : Node C) (r' : Replica C)
      (known : (r.rs.decidedNodes.get? decided).isSome)
      (path : ReflTransGen (TreeLink r.rs.tree) decided nh)
      (found : r.rs.tree.get? nh = some node)
      (next : asI64 node.height = r.rs.lastExecutedHeight + 1)
      (valid : r.rs.validationResult nh = some true)
      (applied : applyNode nh node r = .ok r') : Chore w r r'
  | kick (leafHash : C.Hash) (node : Node C) (block : BlockRef C) (input : State)
      (fresh : r.rs.validationResult leafHash = none)
      (idle : r.rs.pendingValidation ≠ some leafHash)
      (found : r.rs.tree.get? leafHash = some node)
      (read : w.workload.block node.height = .ok block) (cmd : block.cmd = node.cmd)
      (start : inputState r node = some input) :
      Chore w r (submitValidation leafHash node block input r)

abbrev Chores (w : Wiring C) : Replica C → Replica C → Prop := ReflTransGen (Chore w)

theorem Chore.move (h : Chore w r r') : Move (C := C) keys arrives w r r' := by
  cases h with
  | execute decided nh node r' known path found next valid applied =>
    exact .execute decided nh node r' known path found next valid applied
  | kick leafHash node block input fresh idle found read cmd start =>
    exact .kick leafHash node block input fresh idle found read cmd start

theorem chores_moves (h : Chores w r r') : Moves (C := C) keys arrives w r r' :=
  ReflTransGen.mono (fun _ _ => Chore.move) _ _ h

/-- What chores leave alone. -/
structure Backstage (r r' : Replica C) : Prop where
  rs : r'.rs = { r.rs with
    lastExecutedHeight := r'.rs.lastExecutedHeight
    pendingValidation := r'.rs.pendingValidation
    postStateByNode := r'.rs.postStateByNode
    postRootByNode := r'.rs.postRootByNode }
  effects : ∃ new, r'.effects = r.effects ++ new ∧ ∀ e ∈ new,
    (∃ height nh, e = .executed height nh) ∨ ∃ req input, e = .submit req input

section
variable {r r' : Replica C} (h : Backstage r r')
include h

theorem Backstage.n : r'.rs.n = r.rs.n := by rw [h.rs]
theorem Backstage.quorum : r'.rs.quorum = r.rs.quorum := by rw [h.rs]
theorem Backstage.view : r'.rs.view = r.rs.view := by rw [h.rs]
theorem Backstage.viewData : r'.rs.viewData = r.rs.viewData := by rw [h.rs]
theorem Backstage.tree : r'.rs.tree = r.rs.tree := by rw [h.rs]
theorem Backstage.validationResult : r'.rs.validationResult = r.rs.validationResult := by
  rw [h.rs]
theorem Backstage.decidedNodes : r'.rs.decidedNodes = r.rs.decidedNodes := by rw [h.rs]
theorem Backstage.staged : r'.rs.staged = r.rs.staged := by rw [h.rs]

end

theorem Chore.backstage (h : Chore w r r') : Backstage (C := C) r r' := by
  cases h with
  | execute decided nh node r' known path found next valid applied =>
    obtain ⟨hrs, _, heff⟩ := applyNode_frame applied
    refine ⟨?_, _, heff, ?_⟩
    · rw [hrs]
    · intro e he
      cases List.mem_singleton.mp he
      exact Or.inl ⟨_, _, rfl⟩
  | kick leafHash node block input fresh idle found read cmd start =>
    refine ⟨rfl, _, rfl, ?_⟩
    intro e he
    cases List.mem_singleton.mp he
    exact Or.inr ⟨_, _, rfl⟩

theorem Backstage.trans {a b c : Replica C} (hab : Backstage a b) (hbc : Backstage b c) :
    Backstage a c := by
  obtain ⟨hrs, new, heff, hnew⟩ := hab
  obtain ⟨hrs', new', heff', hnew'⟩ := hbc
  refine ⟨by rw [hrs', hrs], new ++ new', by rw [heff', heff, List.append_assoc], ?_⟩
  intro e he
  rcases List.mem_append.mp he with he | he
  · exact hnew e he
  · exact hnew' e he

theorem chores_backstage (h : Chores w r r') : Backstage (C := C) r r' := by
  induction h with
  | refl => exact ⟨rfl, [], by simp, by simp⟩
  | tail _ hc ih => exact ih.trans hc.backstage

/-- The leaf passes every check on the way to the worker, and would be handed
over as the block with this input state. -/
structure Kickable (w : Wiring C) (r : Replica C) (leafHash : C.Hash) (node : Node C)
    (block : BlockRef C) (input : State) : Prop where
  fresh : r.rs.validationResult leafHash = none
  idle : r.rs.pendingValidation ≠ some leafHash
  found : r.rs.tree.get? leafHash = some node
  read : w.workload.block node.height = .ok block
  cmd : block.cmd = node.cmd
  start : inputState r node = some input

/-- A leaf that passes is handed over; otherwise nothing happens. -/
theorem kick_cases (h : maybeKickValidation w leafHash r = .ok r') :
    (r' = r ∧ ∀ node block input, ¬ Kickable (C := C) w r leafHash node block input) ∨
      ∃ node block input, Kickable w r leafHash node block input ∧
        r' = submitValidation leafHash node block input r := by
  unfold maybeKickValidation at h
  split at h
  · rename_i hknown
    cases h
    refine Or.inl ⟨rfl, ?_⟩
    intro node block input hk
    simp [hk.fresh] at hknown
  rename_i hfresh
  split at h
  · rename_i hpending
    cases h
    exact Or.inl ⟨rfl, fun node block input hk => hk.idle hpending⟩
  rename_i hidle
  split at h
  · rename_i hnone
    cases h
    refine Or.inl ⟨rfl, ?_⟩
    intro node block input hk
    cases hnone.symm.trans hk.found
  rename_i node hnode
  split at h
  · cases h
  rename_i block hblock
  split at h
  · rename_i hcmd
    cases h
    refine Or.inl ⟨rfl, ?_⟩
    intro node' block' input hk
    cases hnode.symm.trans hk.found
    cases hblock.symm.trans hk.read
    exact hcmd hk.cmd
  rename_i hcmd
  split at h
  · rename_i hnone
    cases h
    refine Or.inl ⟨rfl, ?_⟩
    intro node' block' input hk
    cases hnode.symm.trans hk.found
    cases hnone.symm.trans hk.start
  rename_i input hinput
  cases h
  exact Or.inr ⟨node, block, input, ⟨by simpa using hfresh, hidle, hnode, hblock,
    by simpa using hcmd, hinput⟩, rfl⟩

theorem kick_chores (h : maybeKickValidation w leafHash r = .ok r') :
    Chores (C := C) w r r' := by
  rcases kick_cases h with ⟨rfl, _⟩ | ⟨node, block, input, hk, rfl⟩
  · exact .refl
  · exact .single (.kick leafHash node block input hk.fresh hk.idle hk.found hk.read hk.cmd
      hk.start)

/-- Every hash the walk returns is linked to the node it started from. -/
theorem walk_linked (h : walkBack tree last fuel cur chain = some out)
    (hc : ∀ x ∈ chain, ReflTransGen (TreeLink (C := C) tree) decided x)
    (hcur : ReflTransGen (TreeLink tree) decided cur) :
    ∀ x ∈ out, ReflTransGen (TreeLink tree) decided x := by
  induction fuel generalizing cur chain with
  | zero => simp [walkBack] at h
  | succ fuel ih =>
    have hpush : ∀ x ∈ chain ++ [cur], ReflTransGen (TreeLink tree) decided x := by
      intro x hx
      rcases List.mem_append.mp hx with hx | hx
      · exact hc x hx
      · exact List.mem_singleton.mp hx ▸ hcur
    unfold walkBack at h
    split at h
    · cases h; exact hc
    · rename_i node hnode
      split at h
      · cases h; exact hc
      · split at h
        · cases h; exact hpush
        · exact ih h hpush (hcur.tail ⟨node, hnode, rfl⟩)

theorem execute_chain_chores (h : executeChain w chain r = .ok r')
    (hd : (r.rs.decidedNodes.get? decided).isSome)
    (hl : ∀ x ∈ chain, ReflTransGen (TreeLink r.rs.tree) decided x) :
    Chores (C := C) w r r' := by
  induction chain generalizing r with
  | nil => cases h; exact .refl
  | cons nh rest ih =>
    unfold executeChain at h
    split at h
    · cases h
    rename_i node hnode
    split at h
    · cases h; exact .refl
    rename_i hnext
    split at h
    · cases h; exact .refl
    · exact kick_chores h
    · rename_i hvalid
      obtain ⟨mid, happ, hrest⟩ := bind_ok.mp h
      have hframe := (applyNode_frame happ).1
      refine .head (.execute decided nh node mid hd (hl nh (by simp)) hnode
        (by simpa using hnext) hvalid happ) (ih hrest (by rw [hframe]; exact hd) ?_)
      intro x hx
      rw [hframe]
      exact hl x (by simp [hx])

theorem try_execute_chores (h : tryExecuteChain w decided r = .ok r')
    (hd : (r.rs.decidedNodes.get? decided).isSome) : Chores (C := C) w r r' := by
  unfold tryExecuteChain at h
  split at h
  · cases h
  · rename_i chain hwalk
    apply execute_chain_chores h hd
    intro x hx
    exact walk_linked hwalk (by simp) .refl x (List.mem_reverse.mp hx)

theorem execute_decided_chores (h : executeDecided w hashes r = .ok r')
    (hd : ∀ x ∈ hashes, (r.rs.decidedNodes.get? x).isSome) :
    Chores (C := C) w r r' := by
  induction hashes generalizing r with
  | nil => cases h; exact .refl
  | cons nh rest ih =>
    obtain ⟨mid, hfirst, hrest⟩ := bind_ok.mp h
    have hm := try_execute_chores hfirst (hd nh (by simp))
    refine hm.trans (ih hrest ?_)
    intro x hx
    rw [(chores_backstage hm).decidedNodes]
    exact hd x (by simp [hx])

theorem retry_chores (h : retryPendingExecute w ord r = .ok r') : Chores (C := C) w r r' := by
  apply execute_decided_chores h
  intro x hx
  exact EntryMap.mem_keys.mp ((ord.perm _ _).mem_iff.mp hx)

theorem kick_leaves_chores (h : kickLeaves w hashes r = .ok r') :
    Chores (C := C) w r r' := by
  induction hashes generalizing r with
  | nil => cases h; exact .refl
  | cons nh rest ih =>
    unfold kickLeaves at h
    split at h
    · cases h; exact .refl
    · obtain ⟨mid, hfirst, hrest⟩ := bind_ok.mp h
      exact (kick_chores hfirst).trans (ih hrest)

/-- Moves never forget a decision: the set only takes insertions. -/
theorem Move.decided_mono (h : Move keys arrives w r r')
    (hd : ((r : Replica C).rs.decidedNodes.get? x).isSome) :
    (r'.rs.decidedNodes.get? x).isSome := by
  have hins : ∀ y, ((r.rs.decidedNodes.insert y ()).get? x).isSome := by
    intro y
    rw [EntryMap.get?_insert]
    split
    · rfl
    · exact hd
  cases h with
  | receive ty p view qc sender =>
    simp only [withRs_rs, receiveQc_eq]
    split
    · exact hins _
    · exact hd
  | enter timeout => rw [enterNewView_eq]; exact hd
  | prepare => rw [castVote_eq]; exact hd
  | preCommit => rw [castVote_eq]; exact hd
  | commit => rw [castVote_eq]; exact hd
  | certify p ord qc => simpa only [emit_rs, withRs_rs, stageQc_eq, vdMut_decidedNodes] using hd
  | decide qc => exact hins _
  | execute decided nh node r' known path found next valid applied =>
    rw [(applyNode_frame applied).1]
    exact hd
  | _ => exact hd

/-- At most one move inside the current view, then chores. Every message and
every rule but the decision is such a turn. -/
def Turn (keys : Nat → Option C.Key) (arrives : Wire C → Prop) (w : Wiring C)
    (r r' : Replica C) : Prop :=
  ∃ mid, (mid = r ∨ Move keys arrives w r mid ∧ mid.rs.view = r.rs.view) ∧ Chores w mid r'

theorem Turn.refl : Turn keys arrives w r (r : Replica C) := ⟨r, Or.inl rfl, .refl⟩

theorem Turn.single (h : Move keys arrives w r r') (hv : r'.rs.view = (r : Replica C).rs.view) :
    Turn keys arrives w r r' := ⟨r', Or.inr ⟨h, hv⟩, .refl⟩

theorem Turn.view (h : Turn keys arrives w r r') : r'.rs.view = (r : Replica C).rs.view := by
  obtain ⟨mid, hmid, hchores⟩ := h
  rw [(chores_backstage hchores).view]
  rcases hmid with rfl | ⟨_, hv⟩
  · rfl
  · exact hv

theorem Turn.moves (h : Turn keys arrives w r r') : Moves (C := C) keys arrives w r r' := by
  obtain ⟨mid, rfl | ⟨hm, _⟩, hchores⟩ := h
  · exact chores_moves hchores
  · exact .head hm (chores_moves hchores)

theorem add_one_cases {v next : Nat} (h : addOne w v = .ok next) :
    next = v + 1 ∨ w.overflowChecks = false ∧ 2 ^ 64 ≤ v + 1 ∧ next = 0 := by
  unfold addOne at h
  split at h
  · cases h; exact Or.inl rfl
  rename_i hmax
  split at h
  · cases h
  · rename_i hchecks
    cases h
    exact Or.inr ⟨by simpa using hchecks, by omega, rfl⟩

/-- What keeps a node from proposing: it does not lead the view, has proposed, has
too few NEW-VIEWs, does not know the node to extend, or is past the last block. -/
def Withheld (w : Wiring C) (ord : Order) (r : Replica C) : Prop :=
  r.rs.leaderFor r.rs.view ≠ w.myId ∨ (r.rs.viewData r.rs.view).broadcastProposal = true ∨
    (r.rs.viewData (r.rs.view - 1)).newViewMsgs.size < r.rs.quorum ∨
    newHeight w r.rs (highQc (ord.list .newViewMsgs
      (r.rs.viewData (r.rs.view - 1)).newViewMsgs.entries)) = .ok none ∨
    ∃ height, newHeight w r.rs (highQc (ord.list .newViewMsgs
      (r.rs.viewData (r.rs.view - 1)).newViewMsgs.entries)) = .ok (some height) ∧
      w.workload.manifest.numBlocks.toNat ≤ height.toNat

/-- A leader waits, or proposes the leaf on top of its highest certificate. -/
theorem leader_prepare_cases (h : leaderPrepare w ord r = .ok r') :
    (r' = r ∧ Withheld w ord r) ∨ ∃ newViews leaf block,
      newViews = ord.list .newViewMsgs (r.rs.viewData (r.rs.view - 1)).newViewMsgs.entries ∧
      r.rs.leaderFor r.rs.view = w.myId ∧
      (r.rs.viewData r.rs.view).broadcastProposal = false ∧ r.rs.quorum ≤ newViews.length ∧
      leaf.parent = expectedParent (highQc newViews) ∧
      newHeight w r.rs (highQc newViews) = .ok (some leaf.height) ∧
      leaf.height.toNat < w.workload.manifest.numBlocks.toNat ∧
      w.workload.block leaf.height = .ok block ∧ block.cmd = leaf.cmd ∧
      maybeKickValidation w (nodeHash leaf) (sendProposal w leaf (highQc newViews) r) =
        (.ok r' : Outcome C (Replica C)) := by
  unfold leaderPrepare at h
  dsimp only at h
  split at h
  · rename_i hleader
    cases h
    exact Or.inl ⟨rfl, Or.inl hleader⟩
  rename_i hleader
  split at h
  · rename_i honce
    cases h
    exact Or.inl ⟨rfl, Or.inr (Or.inl honce)⟩
  rename_i honce
  split at h
  · rename_i hfew
    cases h
    exact Or.inl ⟨rfl, Or.inr (Or.inr (Or.inl hfew))⟩
  rename_i henough
  split at h
  · cases h
  · rename_i hunknown
    cases h
    exact Or.inl ⟨rfl, Or.inr (Or.inr (Or.inr (Or.inl hunknown)))⟩
  rename_i height hheight
  split at h
  · rename_i hpast
    cases h
    exact Or.inl ⟨rfl, Or.inr (Or.inr (Or.inr (Or.inr ⟨height, hheight, hpast⟩)))⟩
  rename_i hrange
  split at h
  · cases h
  rename_i block hblock
  have hperm := ord.perm .newViewMsgs (r.rs.vd (r.rs.view - 1)).newViewMsgs.entries
  refine Or.inr ⟨_, ⟨_, block.cmd, height⟩, block, rfl, by simpa using hleader,
    by simpa using honce, ?_, rfl, hheight, by simpa using hrange, hblock, rfl, h⟩
  have hlen := hperm.length_eq
  simp only [vd_eq, EntryMap.size] at hlen henough
  omega

theorem leader_prepare_turn (h : leaderPrepare w ord r = .ok r') :
    Turn (C := C) keys arrives w r r' := by
  rcases leader_prepare_cases h with ⟨rfl, _⟩ | ⟨newViews, leaf, block, hread, hleader, honce,
    henough, hparent, hheight, hrange, hblock, hcmd, hkick⟩
  · exact .refl
  · have hperm := ord.perm .newViewMsgs (r.rs.viewData (r.rs.view - 1)).newViewMsgs.entries
    rw [← hread] at hperm
    exact ⟨_, Or.inr ⟨.propose newViews leaf hleader honce hperm henough hparent hheight hrange
      ⟨block, hblock, hcmd⟩, rfl⟩, kick_chores hkick⟩

/-- A replica waits for a proposal and its verdict, drops an unfit leaf, or votes. -/
theorem replica_prepare_cases (h : replicaPrepare w r = .ok r') :
    (r' = r ∧ ((r.rs.viewData r.rs.view).proposal = none ∨
      (r.rs.viewData r.rs.view).voted .prepare = true ∨
      ∃ leaf high, (r.rs.viewData r.rs.view).proposal = some (leaf, high) ∧
        r.rs.validationResult (nodeHash leaf) = none)) ∨
    r' = skipPrepare r ∨
    ∃ leaf high, (r.rs.viewData r.rs.view).proposal = some (leaf, high) ∧
      (r.rs.viewData r.rs.view).voted .prepare = false ∧
      r.rs.validationResult (nodeHash leaf) = some true ∧
      safeNode leaf high r.rs.lockedQc r.rs.tree = true ∧
      r' = castVote (C := C) w .prepare (nodeHash leaf) r := by
  unfold replicaPrepare at h
  dsimp only at h
  split at h
  · rename_i hnone
    cases h
    exact Or.inl ⟨rfl, Or.inl hnone⟩
  rename_i leaf high hprop
  split at h
  · rename_i hvoted
    cases h
    exact Or.inl ⟨rfl, Or.inr (Or.inl hvoted)⟩
  rename_i honce
  split at h
  · rename_i hopen
    cases h
    exact Or.inl ⟨rfl, Or.inr (Or.inr ⟨leaf, high, hprop, hopen⟩)⟩
  · cases h
    exact Or.inr (Or.inl rfl)
  · rename_i hvalid
    split at h
    · cases h
      exact Or.inr (Or.inl rfl)
    · rename_i hsafe
      cases h
      exact Or.inr (Or.inr ⟨leaf, high, hprop, by simpa using honce, hvalid, by simpa using hsafe,
        rfl⟩)

theorem replica_prepare_turn (h : replicaPrepare w r = .ok r') :
    Turn (C := C) keys arrives w r r' := by
  rcases replica_prepare_cases h with
    ⟨rfl, _⟩ | rfl | ⟨leaf, high, hprop, honce, hvalid, hsafe, rfl⟩
  · exact .refl
  · exact .single .skip rfl
  · refine .single (.prepare leaf high hprop honce hvalid hsafe) ?_
    rw [castVote_eq]
    rfl

/-- A leader waits for a quorum of votes, or announces the certificate once. -/
theorem leader_qc_cases (h : leaderQc p w ord r = .ok r') :
    (r' = r ∧ (r.rs.leaderFor r.rs.view ≠ w.myId ∨
      (r.rs.viewData r.rs.view).broadcast p = true ∨
      formQc ord ((r.rs.viewData r.rs.view).votes p) (msgTypeOf p) r.rs.view r.rs.quorum = none)) ∨
    ∃ qc, r.rs.leaderFor r.rs.view = w.myId ∧ (r.rs.viewData r.rs.view).broadcast p = false ∧
      formQc ord ((r.rs.viewData r.rs.view).votes p) (msgTypeOf p) r.rs.view r.rs.quorum =
        some qc ∧
      r' = ((r : Replica C).withRs (fun rs => stageQc p rs.view qc (rs.vdMut rs.view (fun d =>
        { d with broadcast := Function.update d.broadcast p true })))).emit
          (.broadcast (.phaseQc (announcedBy p) r.rs.view qc w.myId)) := by
  unfold leaderQc at h
  dsimp only at h
  split at h
  · rename_i hleader
    cases h
    exact Or.inl ⟨rfl, Or.inl hleader⟩
  rename_i hleader
  split at h
  · rename_i honce
    cases h
    exact Or.inl ⟨rfl, Or.inr (Or.inl honce)⟩
  rename_i honce
  split at h
  · rename_i hfew
    cases h
    exact Or.inl ⟨rfl, Or.inr (Or.inr hfew)⟩
  rename_i qc hqc
  cases h
  exact Or.inr ⟨qc, by simpa using hleader, by simpa using honce, hqc, rfl⟩

theorem leader_qc_turn (h : leaderQc p w ord r = .ok r') :
    Turn (C := C) keys arrives w r r' := by
  rcases leader_qc_cases h with ⟨rfl, _⟩ | ⟨qc, hleader, _, hqc, rfl⟩
  · exact .refl
  · refine .single (.certify p ord qc hleader hqc) ?_
    rw [emit_rs, withRs_rs, stageQc_eq]
    rfl

/-- A replica waits for a certificate, or keeps it and votes in the next phase. -/
theorem replica_vote_cases (h : replicaVote p next hold w r = .ok r') :
    (r' = r ∧ ((r.rs.viewData r.rs.view).seen p = false ∨
      (r.rs.viewData r.rs.view).voted next = true ∨ r.rs.staged p r.rs.view = none)) ∨
    ∃ qc, (r.rs.viewData r.rs.view).seen p = true ∧
      (r.rs.viewData r.rs.view).voted next = false ∧ r.rs.staged p r.rs.view = some qc ∧
      r' = castVote (C := C) w next qc.nodeHash (r.withRs (hold qc)) := by
  unfold replicaVote at h
  dsimp only at h
  split at h
  · rename_i hwait
    cases h
    simp only [vd_eq, Bool.not_eq_true'] at hwait
    exact Or.inl ⟨rfl, hwait.imp_right Or.inl⟩
  rename_i hopen
  split at h
  · rename_i hnone
    cases h
    exact Or.inl ⟨rfl, Or.inr (Or.inr hnone)⟩
  rename_i qc hqc
  cases h
  simp only [vd_eq, Bool.not_eq_true', not_or, Bool.not_eq_false, Bool.not_eq_true] at hopen
  exact Or.inr ⟨qc, hopen.1, hopen.2, hqc, rfl⟩

theorem replica_pre_commit_turn (h : replicaPreCommit w r = .ok r') :
    Turn (C := C) keys arrives w r r' := by
  rcases replica_vote_cases h with ⟨rfl, _⟩ | ⟨qc, hseen, honce, hqc, rfl⟩
  · exact .refl
  · refine .single (.preCommit qc hseen honce hqc) ?_
    rw [castVote_eq]
    rfl

theorem replica_commit_turn (h : replicaCommit w r = .ok r') :
    Turn (C := C) keys arrives w r r' := by
  rcases replica_vote_cases h with ⟨rfl, _⟩ | ⟨qc, hseen, honce, hqc, rfl⟩
  · exact .refl
  · refine .single (.commit qc hseen honce hqc) ?_
    rw [castVote_eq]
    rfl

/-- The decision rule waits for a certificate, or records the decision, executes
what it can and leaves the view. -/
theorem replica_decide_inv (h : replicaDecide w r = .ok r') :
    (r' = r ∧ ((r.rs.viewData r.rs.view).seen .commit = false ∨
      r.rs.staged .commit r.rs.view = none)) ∨
    ∃ qc mid next, (r.rs.viewData r.rs.view).seen .commit = true ∧
      r.rs.staged .commit r.rs.view = some qc ∧
      tryExecuteChain w qc.nodeHash (r.withRs (fun rs =>
        { rs with decidedNodes := rs.decidedNodes.insert qc.nodeHash () })) = .ok mid ∧
      Chores w (r.withRs (fun rs =>
        { rs with decidedNodes := rs.decidedNodes.insert qc.nodeHash () })) mid ∧
      mid.rs.view = (r : Replica C).rs.view ∧ addOne w r.rs.view = .ok next ∧
      r' = enterNewView w next (mid.withRs (fun rs =>
        { rs with timeoutIntervalMs := w.timeoutBaseMs })) := by
  unfold replicaDecide at h
  dsimp only at h
  split at h
  · rename_i hseen
    cases h
    exact Or.inl ⟨rfl, Or.inl (by simpa using hseen)⟩
  rename_i hseen
  split at h
  · rename_i hnone
    cases h
    exact Or.inl ⟨rfl, Or.inr hnone⟩
  rename_i qc hqc
  obtain ⟨mid, hexec, hrest⟩ := bind_ok.mp h
  obtain ⟨next, hnext, hdone⟩ := bind_ok.mp hrest
  cases hdone
  have hchores := try_execute_chores hexec (by simp)
  have hview := (chores_backstage hchores).view
  exact Or.inr ⟨qc, mid, next, by simpa using hseen, hqc, hexec, hchores, hview, hnext, rfl⟩

theorem replica_decide_cases (h : replicaDecide w r = .ok r') (hw : ¬ Wraps r r') :
    (r' = r ∧ ((r.rs.viewData r.rs.view).seen .commit = false ∨
      r.rs.staged .commit r.rs.view = none)) ∨
    ∃ qc mid, (r.rs.viewData r.rs.view).seen .commit = true ∧
      r.rs.staged .commit r.rs.view = some qc ∧
      tryExecuteChain w qc.nodeHash (r.withRs (fun rs =>
        { rs with decidedNodes := rs.decidedNodes.insert qc.nodeHash () })) = .ok mid ∧
      Chores w (r.withRs (fun rs =>
        { rs with decidedNodes := rs.decidedNodes.insert qc.nodeHash () })) mid ∧
      mid.rs.view = (r : Replica C).rs.view ∧
      r' = enterNewView w (r.rs.view + 1) (mid.withRs (fun rs =>
        { rs with timeoutIntervalMs := w.timeoutBaseMs })) := by
  rcases replica_decide_inv h with hwait |
    ⟨qc, mid, next, hseen, hqc, hexec, hchores, hview, hnext, rfl⟩
  · exact Or.inl hwait
  rcases add_one_cases hnext with rfl | ⟨_, hmax, rfl⟩
  · exact Or.inr ⟨qc, mid, hseen, hqc, hexec, hchores, hview, rfl⟩
  · exact absurd ⟨hmax, enterNewView_view ..⟩ hw

theorem replica_decide_moves (h : replicaDecide w r = .ok r') (hw : ¬ Wraps r r') :
    Moves (C := C) keys arrives w r r' := by
  rcases replica_decide_cases h hw with ⟨rfl, _⟩ | ⟨qc, mid, _, hqc, _, hchores, hview, rfl⟩
  · exact .refl
  · rw [← hview]
    exact .head (.decide qc hqc) ((chores_moves hchores).tail (.enter w.timeoutBaseMs))

theorem rule_turn (rule : Rule) (h : rule.run w ord r = .ok r') (hne : rule ≠ .replicaDecide) :
    Turn (C := C) keys arrives w r r' := by
  cases rule with
  | leaderPrepare => exact leader_prepare_turn h
  | replicaPrepare => exact replica_prepare_turn h
  | leaderPreCommit => exact leader_qc_turn (p := .prepare) h
  | replicaPreCommit => exact replica_pre_commit_turn h
  | leaderCommit => exact leader_qc_turn (p := .preCommit) h
  | replicaCommit => exact replica_commit_turn h
  | leaderDecide => exact leader_qc_turn (p := .commit) h
  | replicaDecide => exact absurd rfl hne
  | retryPendingExecute => exact ⟨r, Or.inl rfl, retry_chores h⟩
  | tryKickPendingValidations => exact ⟨r, Or.inl rfl, kick_leaves_chores h⟩

theorem rule_moves (rule : Rule) (h : rule.run w ord r = .ok r') (hw : ¬ Wraps r r') :
    Moves (C := C) keys arrives w r r' := by
  by_cases hne : rule = .replicaDecide
  · subst rule
    exact replica_decide_moves h hw
  · exact (rule_turn rule h hne).moves

/-- A proposal is dropped, or stored and handed to the worker where it can be. -/
theorem proposal_cases (h : handleProposal keys w view node justify sender r = .ok r') :
    r' = r ∨ (sender = r.rs.leaderFor view ∧ verifyJustify justify r.rs.quorum keys = true ∧
      node.parent = expectedParent justify ∧
      maybeKickValidation w (nodeHash node) (r.withRs (stashProposal view node justify)) =
        (.ok r' : Outcome C (Replica C))) := by
  unfold handleProposal at h
  split at h
  · cases h; exact Or.inl rfl
  rename_i hleader
  split at h
  · cases h; exact Or.inl rfl
  rename_i hsigs
  split at h
  · cases h; exact Or.inl rfl
  rename_i hparent
  exact Or.inr ⟨by simpa using hleader, by simpa using hsigs, by simpa using hparent, h⟩

theorem proposal_turn (h : handleProposal keys w view node justify sender r = .ok r')
    (ha : arrives (.proposal view node justify sender)) : Turn (C := C) keys arrives w r r' := by
  rcases proposal_cases h with rfl | ⟨hleader, hsigs, hparent, hkick⟩
  · exact .refl
  · exact ⟨_, Or.inr ⟨.stash view node justify sender ha hleader hsigs hparent, rfl⟩,
      kick_chores hkick⟩

theorem phase_qc_turn (h : handlePhaseQc keys ty view qc sender r = .ok r')
    (ha : arrives (.phaseQc ty view qc sender)) : Turn (C := C) keys arrives w r r' := by
  unfold handlePhaseQc at h
  split at h
  · cases h; exact .refl
  rename_i hleader
  split at h
  · cases h; exact .refl
  rename_i p hphase
  split at h
  · cases h; exact .refl
  rename_i hsame
  split at h
  · cases h; exact .refl
  rename_i hsigs
  cases h
  simp only [not_or, Decidable.not_not] at hsame
  refine .single (.receive ty p view qc sender ha (by simpa using hleader) hphase hsame.1 hsame.2
    (by simpa using hsigs)) ?_
  rw [withRs_rs, receiveQc_eq, stageQc_eq]
  rfl

theorem vote_turn (h : handleVote keys w ty view nh voter sig r = .ok r')
    (ha : arrives (.vote ty view nh voter sig)) : Turn (C := C) keys arrives w r r' := by
  unfold handleVote at h
  split at h
  · cases h; exact .refl
  rename_i hleader
  split at h
  · cases h; exact .refl
  rename_i hsigs
  split at h
  · cases h; exact .refl
  rename_i p hphase
  cases h
  refine .single (.count ty p view nh voter sig ha (by simpa using hleader) hphase ?_) rfl
  by_cases hv : voter = w.myId
  · exact Or.inl hv
  · right
    simpa [hv, Option.any_eq_true] using hsigs

theorem new_view_turn (h : handleNewView keys w view justify sender r = .ok r')
    (ha : arrives (.newView view justify sender)) : Turn (C := C) keys arrives w r r' := by
  unfold handleNewView at h
  split at h
  · cases h
  rename_i next hnext
  split at h
  · cases h; exact .refl
  rename_i hleader
  split at h
  · cases h; exact .refl
  rename_i hsigs
  cases h
  exact .single (.collect view justify sender next ha hnext (by simpa using hleader)
    (by simpa using hsigs)) rfl

theorem message_turn (msg : Wire C) (h : handleMsg keys w r msg = .ok r') (ha : arrives msg) :
    Turn keys arrives w r r' := by
  cases msg with
  | hello nodeId pubkey => cases h; exact .refl
  | proposal view node justify sender => exact proposal_turn h ha
  | phaseQc ty view justify sender => exact phase_qc_turn h ha
  | vote ty view nh voter sig => exact vote_turn h ha
  | newView view justify sender => exact new_view_turn h ha

/-- A timer of the current view moves the node on, unless the view is decided. -/
theorem timer_inv (h : handleTimer w view r = .ok r') :
    (r' = r ∧ (view = r.rs.view → (r.rs.viewData r.rs.view).seen .commit = true)) ∨
      ∃ timeout next, view = r.rs.view ∧ addOne w r.rs.view = .ok next ∧
        r' = enterNewView w next
          ((r : Replica C).withRs (fun rs => { rs with timeoutIntervalMs := timeout })) := by
  unfold handleTimer at h
  split at h
  · rename_i hother
    cases h
    exact Or.inl ⟨rfl, fun hv => absurd hv hother⟩
  rename_i hview
  split at h
  · rename_i hseen
    cases h
    exact Or.inl ⟨rfl, fun _ => hseen⟩
  split at h
  · cases h
  rename_i next hnext
  cases h
  exact Or.inr ⟨_, next, by simpa using hview, hnext, rfl⟩

theorem timer_cases (h : handleTimer w view r = .ok r') (hw : ¬ Wraps r r') :
    (r' = r ∧ (view = r.rs.view → (r.rs.viewData r.rs.view).seen .commit = true)) ∨
      ∃ timeout, view = r.rs.view ∧ r' = enterNewView w (r.rs.view + 1)
        ((r : Replica C).withRs (fun rs => { rs with timeoutIntervalMs := timeout })) := by
  rcases timer_inv h with hwait | ⟨timeout, next, hview, hnext, rfl⟩
  · exact Or.inl hwait
  rcases add_one_cases hnext with rfl | ⟨_, hmax, rfl⟩
  · exact Or.inr ⟨timeout, hview, rfl⟩
  · exact absurd ⟨hmax, enterNewView_view ..⟩ hw

/-- An event is a turn, or a timer that moves the node on. -/
theorem event_inv (ev : Event C) (h : handleEvent keys w r ev = .ok r')
    (ha : ∀ msg, ev = .message msg → arrives msg) : Turn keys arrives w r r' ∨
      ∃ timeout next, ev = .timer r.rs.view ∧ addOne w r.rs.view = .ok next ∧
        r' = enterNewView w next
          (r.withRs (fun rs => { rs with timeoutIntervalMs := timeout })) := by
  cases ev with
  | message msg => exact Or.inl (message_turn msg h (ha msg rfl))
  | timer view =>
    rcases timer_inv h with ⟨rfl, _⟩ | ⟨timeout, next, rfl, hr⟩
    · exact Or.inl .refl
    · exact Or.inr ⟨timeout, next, rfl, hr⟩
  | validated k =>
    simp only [handleEvent] at h
    split at h
    · cases h; exact Or.inl .refl
    · rename_i req input hk
      obtain ⟨out, hran, rfl⟩ := map_ok.mp h
      exact Or.inl (.single (.ingest k req input out hk hran) rfl)

theorem event_cases (ev : Event C) (h : handleEvent keys w r ev = .ok r') (hw : ¬ Wraps r r')
    (ha : ∀ msg, ev = .message msg → arrives msg) : Turn keys arrives w r r' ∨
      ∃ timeout, ev = .timer r.rs.view ∧ r' = enterNewView w (r.rs.view + 1)
        (r.withRs (fun rs => { rs with timeoutIntervalMs := timeout })) := by
  rcases event_inv ev h ha with hturn | ⟨timeout, next, hev, hnext, rfl⟩
  · exact Or.inl hturn
  rcases add_one_cases hnext with rfl | ⟨_, hmax, rfl⟩
  · exact Or.inr ⟨timeout, hev, rfl⟩
  · exact absurd ⟨hmax, enterNewView_view ..⟩ hw

theorem event_moves (ev : Event C) (h : handleEvent keys w r ev = .ok r') (hw : ¬ Wraps r r')
    (ha : ∀ msg, ev = .message msg → arrives msg) : Moves keys arrives w r r' := by
  rcases event_cases ev h hw ha with h | ⟨timeout, _, rfl⟩
  · exact h.moves
  · exact .single (.enter timeout)

theorem rule_view (rule : Rule) (h : rule.run w ord r = .ok r') :
    r'.rs.view = (r : Replica C).rs.view ∨ addOne w r.rs.view = .ok r'.rs.view := by
  by_cases hne : rule = .replicaDecide
  · subst rule
    rcases replica_decide_inv h with ⟨rfl, _⟩ | ⟨qc, mid, next, _, _, _, _, _, hnext, rfl⟩
    · exact Or.inl rfl
    · rw [enterNewView_view]
      exact Or.inr hnext
  · have hturn : Turn (fun _ => none) (fun _ => True) w r r' := rule_turn rule h hne
    exact Or.inl hturn.view

theorem event_view (ev : Event C) (h : handleEvent keys w r ev = .ok r') :
    r'.rs.view = r.rs.view ∨ addOne w r.rs.view = .ok r'.rs.view := by
  have hcases : Turn keys (fun _ => True) w r r' ∨ _ := event_inv ev h (by simp)
  rcases hcases with hturn | ⟨timeout, next, _, hnext, rfl⟩
  · exact Or.inl hturn.view
  · rw [enterNewView_view]
    exact Or.inr hnext

theorem runRules_append (w : Wiring C) (ord : Order) (front back : List Rule) (r : Replica C) :
    runRules w ord (front ++ back) r = (runRules w ord front r).bind (runRules w ord back) := by
  induction front generalizing r with
  | nil => rfl
  | cons rule rest ih =>
    simp only [List.cons_append, runRules]
    cases rule.run w ord r with
    | error e => rfl
    | ok mid => exact ih mid

/-- The view of a node stays, or goes up by one as the build adds. -/
theorem step_view (h : Machine.Step keys w ev m m') :
    m'.replica.rs.view = m.replica.rs.view ∨
      addOne (C := C) w m.replica.rs.view = .ok m'.replica.rs.view := by
  cases h with
  | event ev r r' running ran => exact event_view ev ran
  | rule ord rule rest r r' ran => exact rule_view rule ran

theorem checked_bounded (hc : w.overflowChecks = true)
    (hv : r'.rs.view = r.rs.view ∨ addOne w r.rs.view = .ok r'.rs.view) :
    ¬ Wraps (C := C) r r' := by
  rintro ⟨hmax, hzero⟩
  rcases hv with hsame | hnext
  · omega
  · rcases add_one_cases hnext with hnext | ⟨hchecks, _⟩
    · omega
    · rw [hc] at hchecks
      cases hchecks

/-- A build with overflow checks stops before its view passes `u64::MAX`. -/
theorem step_bounded (h : Machine.Step keys w ev m m') (hc : w.overflowChecks = true) :
    ¬ Wraps m.replica (m' : Machine C).replica :=
  checked_bounded hc (step_view h)

/-- Every step of a running node is a sequence of moves, unless the view passes
`u64::MAX`. -/
theorem step_moves (h : Machine.Step keys w ev m m') (hw : ¬ Wraps m.replica m'.replica)
    (ha : ∀ msg, ev = some (.message msg) → arrives msg) :
    Moves (C := C) keys arrives w m.replica m'.replica := by
  cases h with
  | event ev r r' running ran =>
    exact event_moves ev ran hw (fun msg he => ha msg (congrArg some he))
  | rule ord rule rest r r' ran => exact rule_moves rule ran hw

/-- A step that takes the view past `u64::MAX` ends with the entry into view 0. -/
theorem wraps_enter (h : Machine.Step keys w ev m m') (hw : Wraps m.replica m'.replica) :
    ∃ mid timeout, Moves (C := C) keys arrives w m.replica mid ∧ 2 ^ 64 ≤ mid.rs.view + 1 ∧
      m'.replica = enterNewView w 0 (mid.withRs (fun rs =>
        { rs with timeoutIntervalMs := timeout })) := by
  obtain ⟨hmax, hzero⟩ := hw
  have hkept : m'.replica.rs.view ≠ m.replica.rs.view := by omega
  cases h with
  | event ev r r' running ran =>
    have hcases : Turn keys (fun _ => True) w r r' ∨ _ := event_inv ev ran (by simp)
    rcases hcases with hturn | ⟨timeout, next, _, _, rfl⟩
    · exact absurd hturn.view hkept
    · rw [enterNewView_view] at hzero
      exact ⟨r, timeout, .refl, hmax, by rw [hzero]⟩
  | rule ord rule rest r r' ran =>
    by_cases hne : rule = .replicaDecide
    · subst rule
      rcases replica_decide_inv ran with ⟨rfl, _⟩ |
        ⟨qc, mid, next, _, hqc, _, hchores, hview, _, rfl⟩
      · exact absurd rfl hkept
      · rw [enterNewView_view] at hzero
        refine ⟨mid, _, .head (.decide qc hqc) (chores_moves hchores), ?_, by rw [hzero]⟩
        rw [hview]
        exact hmax
    · have hturn : Turn (fun _ => none) (fun _ => True) w r r' := rule_turn rule ran hne
      exact absurd hturn.view hkept

/-- What every move and the entry into view 0 keep, every step keeps. -/
theorem step_keeps {P : Replica C → Prop}
    (hmove : ∀ r r', P r → Move keys arrives w r r' → P r')
    (hwrap : ∀ r timeout, 2 ^ 64 ≤ r.rs.view + 1 → P r → P (enterNewView w 0 (r.withRs (fun rs =>
      { rs with timeoutIntervalMs := timeout }))))
    (h : Machine.Step keys w ev m m') (ha : ∀ msg, ev = some (.message msg) → arrives msg)
    (hp : P m.replica) : P m'.replica := by
  by_cases hw : Wraps m.replica m'.replica
  · obtain ⟨mid, timeout, hmoves, hmax, he⟩ := wraps_enter h hw
    rw [he]
    exact hwrap mid timeout hmax (moves_invariant hmove hmoves hp)
  · exact moves_invariant hmove (step_moves h hw ha) hp

/-- The states a node can be in later on, whatever its view does. -/
def Machine.Runs (w : Wiring C) : Machine C → Machine C → Prop :=
  ReflTransGen (fun m m' => ∃ keys ev, Machine.Step keys w ev m m')

theorem Machine.Reach.runs (hr : Machine.Reach w n m) : Machine.Runs (C := C) w (.start w n) m := by
  induction hr with
  | start => exact .refl
  | step keys ev _ hstep _ ih => exact ih.tail ⟨keys, ev, hstep⟩

/-- An invariant of one node in every run, a view past `u64::MAX` included. -/
theorem runs_invariant {P : Replica C → Prop}
    (h0 : P (startProtocol w (bootReplica w n)))
    (hmove : ∀ keys r r', P r → Move keys (fun _ => True) w r r' → P r')
    (hwrap : ∀ r timeout, 2 ^ 64 ≤ r.rs.view + 1 → P r → P (enterNewView w 0 (r.withRs (fun rs =>
      { rs with timeoutIntervalMs := timeout }))))
    (hr : Machine.Runs w (.start w n) m) : P m.replica := by
  induction hr with
  | refl => exact h0
  | tail _ hstep ih =>
    obtain ⟨keys, ev, hstep⟩ := hstep
    exact step_keeps (hmove keys) hwrap hstep (by simp) ih

/-- An invariant of one node: true at the start of its protocol and kept by
every move, whatever arrives and whatever the keys are. -/
theorem reach_invariant {P : Replica C → Prop}
    (h0 : P (startProtocol w (bootReplica w n)))
    (hs : ∀ keys r r', P r → Move keys (fun _ => True) w r r' → P r')
    (hr : Machine.Reach w n m) : P m.replica := by
  induction hr with
  | start => exact h0
  | step keys ev _ hstep hbound ih =>
    have hm : Moves keys (fun _ => True) w _ _ := step_moves hstep hbound (by simp)
    exact moves_invariant (hs keys) hm ih

end ZkStf
