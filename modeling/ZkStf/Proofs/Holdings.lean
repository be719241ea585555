import ZkStf.Proofs.Certificates
import ZkStf.Proofs.Moves

namespace ZkStf
open ZkStf.Basis
open ZkStf.Basis.Ballots (Phase)
variable {C : Crypto}

def Wire.certs : Wire C → List (QC C)
  | .proposal _ _ justify _ => justify.toList
  | .phaseQc _ _ justify _ => [justify]
  | .newView _ justify _ => justify.toList
  | _ => []

def Effect.sent : Effect C → Option (Wire C)
  | .broadcast msg => some msg
  | .sendTo _ msg => some msg
  | _ => none

/-- The certificates and votes a node keeps for one view. -/
structure ViewHolds (good : QC C → Prop) (vote : Phase → Nat → Nat → C.Hash → C.Sig → Prop)
    (v : Nat) (d : ViewData C) : Prop where
  proposal : ∀ leaf high, d.proposal = some (leaf, high) →
    leaf.parent = expectedParent high ∧ ∀ qc, high = some qc → good qc
  votes : ∀ p voter nh sig, (d.votes p).get? voter = some (nh, sig) → vote p v voter nh sig
  newViews : ∀ sender qc, d.newViewMsgs.get? sender = some (some qc) → good qc

/-- Every place a node keeps a certificate or a vote in, or has sent one from.
What is known of them, `good` and `vote`, is left open. -/
structure Holds (n : Nat) (good : QC C → Prop)
    (vote : Phase → Nat → Nat → C.Hash → C.Sig → Prop) (r : Replica C) : Prop where
  size : r.rs.n = n
  quorum : r.rs.quorum = n - (n - 1) / 3
  tree : ∀ h node, r.rs.tree.get? h = some node → nodeHash node = h
  views : ∀ v, ViewHolds good vote v (r.rs.viewData v)
  staged : ∀ p v qc, r.rs.staged p v = some qc →
    qc.msgType = msgTypeOf p ∧ qc.view = v ∧ good qc
  prepareQc : ∀ qc, r.rs.prepareQc = some qc → qc.msgType = .prepare ∧ good qc
  lockedQc : ∀ qc, r.rs.lockedQc = some qc → qc.msgType = .preCommit ∧ good qc
  decided : ∀ h, (r.rs.decidedNodes.get? h).isSome →
    ∃ qc, qc.msgType = .commit ∧ qc.nodeHash = h ∧ good qc
  sent : ∀ e ∈ r.effects, ∀ msg, e.sent = some msg → ∀ qc ∈ msg.certs, good qc

/-- What makes a certificate or a vote acceptable: one from the network that
passed its check, one the node cast itself, a certificate made of such votes. -/
structure Feeds (keys : Nat → Option C.Key) (arrives : Wire C → Prop) (w : Wiring C) (n : Nat)
    (good : QC C → Prop) (vote : Phase → Nat → Nat → C.Hash → C.Sig → Prop)
    (effects : List (Effect C)) : Prop where
  certs : ∀ msg, arrives msg → ∀ qc ∈ msg.certs,
    verifyQc qc (n - (n - 1) / 3) keys = true → good qc
  votes : ∀ p v nh voter sig, arrives (.vote (msgTypeOf p) v nh voter sig) →
    (voter = w.myId ∨ ∃ pk, keys voter = some pk ∧
      verifyVoteSig pk (msgTypeOf p) v nh sig = true) → vote p v voter nh sig
  cast : ∀ p v nh verdict, .sign (voteDigest (msgTypeOf p) v nh) verdict ∈ effects →
    vote p v w.myId nh (signVote w.sk (msgTypeOf p) v nh)
  formed : ∀ p (qc : QC C), qc.msgType = msgTypeOf p → n - (n - 1) / 3 ≤ qc.sigs.length →
    (qc.sigs.map Prod.fst).Nodup →
    (∀ i sig, (i, sig) ∈ qc.sigs → vote p qc.view i qc.nodeHash sig) → good qc

theorem votedPhase_eq {ty : MsgType} {p : Phase} (h : votedPhase ty = some p) :
    ty = msgTypeOf p := by
  cases ty <;> cases h <;> rfl

section
variable {good : QC C → Prop} {vote : Phase → Nat → Nat → C.Hash → C.Sig → Prop}
  {keys : Nat → Option C.Key} {arrives : Wire C → Prop} {w : Wiring C} {n : Nat}

/-- The tree maps each hash to a node of that hash. -/
theorem tree_insert {tree : EntryMap C.Hash (Node C)}
    (h : ∀ h node, tree.get? h = some node → nodeHash node = h) (leaf : Node C) :
    ∀ h node, (tree.insert (nodeHash leaf) leaf).get? h = some node → nodeHash node = h := by
  intro x node hx
  rw [EntryMap.get?_insert] at hx
  split at hx
  · cases hx
    exact Eq.symm (by assumption)
  · exact h x node hx

theorem ViewHolds.with_proposal {d : ViewData C} (h : ViewHolds good vote v d) {leaf : Node C}
    {high : Option (QC C)} (hp : leaf.parent = expectedParent high)
    (hq : ∀ qc, high = some qc → good qc) :
    ViewHolds good vote v { d with proposal := d.proposal.or (some (leaf, high)) } := by
  refine { h with proposal := ?_ }
  intro leaf' high' he
  cases hd : d.proposal with
  | none =>
    rw [hd] at he
    cases he
    exact ⟨hp, hq⟩
  | some old =>
    rw [hd] at he
    exact h.proposal leaf' high' (hd.trans he)

theorem Holds.viewData {r : Replica C} (h : Holds n good vote r) {v : Nat}
    {f : ViewData C → ViewData C} (hv : ViewHolds good vote v (f (r.rs.viewData v))) :
    Holds n good vote (r.withRs (fun rs => rs.vdMut v f)) :=
  { h with views := update_forall h.views hv }

theorem Holds.stash {r : Replica C} (h : Holds n good vote r) {leaf : Node C}
    {high : Option (QC C)} (view : Nat) (hp : leaf.parent = expectedParent high)
    (hq : ∀ qc, high = some qc → good qc) :
    Holds n good vote (r.withRs (stashProposal view leaf high)) :=
  { h with
    tree := tree_insert h.tree leaf
    views := update_forall h.views ((h.views view).with_proposal hp hq) }

/-- A certificate of its phase and view may be staged, whoever made it. -/
theorem Holds.stage {r : Replica C} (h : Holds n good vote r) {p : Phase} {v : Nat} {qc : QC C}
    (ht : qc.msgType = msgTypeOf p) (hv : qc.view = v) (hg : good qc) :
    Holds n good vote (r.withRs (stageQc p v qc)) := by
  rw [Replica.withRs, stageQc_eq]
  refine { h with
    views := update_forall h.views ⟨(h.views _).proposal, (h.views _).votes,
      (h.views _).newViews⟩
    staged := ?_ }
  intro p' v' qc' hs
  dsimp only at hs
  split at hs
  · exact h.staged p' v' qc' hs
  · rw [Function.update_apply] at hs
    split at hs
    · subst p'
      rw [Function.update_apply] at hs
      split at hs
      · cases hs
        exact ⟨ht, by rw [hv]; exact Eq.symm (by assumption), hg⟩
      · exact h.staged p v' qc' hs
    · exact h.staged p' v' qc' hs

theorem Holds.decide {r : Replica C} (h : Holds n good vote r) {qc : QC C}
    (ht : qc.msgType = .commit) (hg : good qc) :
    Holds n good vote (r.withRs (fun rs =>
      { rs with decidedNodes := rs.decidedNodes.insert qc.nodeHash () })) := by
  refine { h with decided := ?_ }
  intro x hx
  simp only [withRs_rs, EntryMap.get?_insert] at hx
  split at hx
  · exact ⟨qc, ht, Eq.symm (by assumption), hg⟩
  · exact h.decided x hx

theorem sent_append {old new : List (Effect C)}
    (h : ∀ e ∈ old, ∀ msg, e.sent = some msg → ∀ qc ∈ msg.certs, good qc)
    (hs : ∀ e ∈ new, ∀ msg, e.sent = some msg → ∀ qc ∈ msg.certs, good qc) :
    ∀ e ∈ old ++ new, ∀ msg, e.sent = some msg → ∀ qc ∈ msg.certs, good qc := by
  intro e he
  rcases List.mem_append.mp he with he | he
  · exact h e he
  · exact hs e he

theorem Holds.emit {r : Replica C} (h : Holds n good vote r) {e : Effect C}
    (hs : ∀ msg, e.sent = some msg → ∀ qc ∈ msg.certs, good qc) :
    Holds n good vote (r.emit e) := by
  refine { h with sent := sent_append h.sent ?_ }
  intro e' he
  cases List.mem_singleton.mp he
  exact hs

theorem Holds.cast {r : Replica C} (h : Holds n good vote r) (p : Phase) (nh : C.Hash)
    (hv : vote p r.rs.view w.myId nh (signVote w.sk (msgTypeOf p) r.rs.view nh)) :
    Holds n good vote (castVote w p nh r) := by
  rw [castVote_eq]
  refine { h with
    views := update_forall h.views ⟨(h.views _).proposal, ?_, (h.views _).newViews⟩
    sent := sent_append h.sent ?_ }
  · intro p' voter nh' sig hget
    dsimp only at hget
    split at hget
    · rw [Function.update_apply] at hget
      split at hget
      · subst p'
        rw [EntryMap.get?_insert] at hget
        split at hget
        · subst voter
          cases hget
          exact hv
        · exact (h.views _).votes p voter nh' sig hget
      · exact (h.views _).votes p' voter nh' sig hget
    · exact (h.views _).votes p' voter nh' sig hget
  · intro e he msg hmsg qc hqc
    rcases List.mem_cons.mp he with rfl | he
    · cases hmsg
    · split at he
      · cases he
      · cases List.mem_singleton.mp he
        cases hmsg
        cases hqc

theorem Holds.enter {r : Replica C} (h : Holds n good vote r) (v : Nat) :
    Holds n good vote (enterNewView w v r) := by
  rw [enterNewView_eq]
  refine { h with
    views := update_forall h.views ⟨(h.views _).proposal, (h.views _).votes, ?_⟩
    sent := sent_append h.sent ?_ }
  · intro sender qc hget
    dsimp only at hget
    split at hget
    · rw [EntryMap.get?_insert] at hget
      split at hget
      · exact (h.prepareQc qc (Option.some.inj hget)).2
      · exact (h.views _).newViews sender qc hget
    · exact (h.views _).newViews sender qc hget
  · intro e he msg hmsg qc hqc
    rcases List.mem_append.mp he with he | he
    · split at he
      · cases he
      · cases List.mem_singleton.mp he
        cases hmsg
        exact (h.prepareQc qc (Option.mem_toList.mp hqc)).2
    · cases List.mem_singleton.mp he
      cases hmsg

theorem Holds.boot : Holds (C := C) n good vote (bootReplica w n) := by
  have hfresh : ∀ v, ViewHolds good vote v (.fresh C) := by
    intro v
    exact ⟨by simp [ViewData.fresh], by simp [ViewData.fresh], by simp [ViewData.fresh]⟩
  refine ⟨rfl, rfl, ?_, hfresh, ?_, ?_, ?_, ?_, ?_⟩ <;> simp [bootReplica, ReplicaState.new]

theorem Holds.start : Holds (C := C) n good vote (startProtocol w (bootReplica w n)) :=
  Holds.enter { Holds.boot with } 1

/-- Reading one more certificate: it wins unless the best so far is of a later
view. -/
theorem maxByView_concat (qcs : List (QC C)) (q : QC C) :
    (maxByView (qcs ++ [q]) = some q ∧ ∀ b, maxByView qcs = some b → b.view ≤ q.view) ∨
      ∃ b, maxByView qcs = some b ∧ q.view < b.view ∧ maxByView (qcs ++ [q]) = some b := by
  unfold maxByView
  rw [List.foldl_concat]
  split
  · rename_i hnone
    exact Or.inl ⟨rfl, by simp [hnone]⟩
  · rename_i b hsome
    split
    · rename_i hle
      exact Or.inl ⟨rfl, by simp [hsome, hle]⟩
    · rename_i hlt
      exact Or.inr ⟨b, hsome, by omega, rfl⟩

theorem maxByView_mem {qcs : List (QC C)} {qc : QC C} (h : maxByView qcs = some qc) :
    qc ∈ qcs := by
  induction qcs using List.reverseRecOn with
  | nil => cases h
  | append_singleton qcs q ih =>
    rcases maxByView_concat qcs q with ⟨hq, _⟩ | ⟨b, hb, _, hsame⟩
    · cases hq.symm.trans h
      simp
    · cases hsame.symm.trans h
      exact List.mem_append_left _ (ih hb)

/-- The certificate a leader extends is one of those its NEW-VIEWs carry. -/
theorem highQc_mem {newViews : List (Nat × Option (QC C))} {qc : QC C}
    (h : highQc newViews = some qc) : ∃ sender, (sender, some qc) ∈ newViews := by
  obtain ⟨⟨sender, justify⟩, hm, he⟩ := List.mem_filterMap.mp (maxByView_mem h)
  cases he
  exact ⟨sender, hm⟩

theorem Holds.mono {good' : QC C → Prop} {vote' : Phase → Nat → Nat → C.Hash → C.Sig → Prop}
    {r : Replica C} (h : Holds n good vote r) (hg : ∀ qc, good qc → good' qc)
    (hv : ∀ p v voter nh sig, vote p v voter nh sig → vote' p v voter nh sig) :
    Holds n good' vote' r := by
  refine ⟨h.size, h.quorum, h.tree, ?_, ?_, ?_, ?_, ?_, ?_⟩
  · intro v
    refine ⟨?_, ?_, ?_⟩
    · intro leaf high hp
      obtain ⟨hparent, hq⟩ := (h.views v).proposal leaf high hp
      exact ⟨hparent, fun qc he => hg qc (hq qc he)⟩
    · intro p voter nh sig hget
      exact hv _ _ _ _ _ ((h.views v).votes p voter nh sig hget)
    · intro sender qc hget
      exact hg qc ((h.views v).newViews sender qc hget)
  · intro p v qc hs
    obtain ⟨ht, hview, hq⟩ := h.staged p v qc hs
    exact ⟨ht, hview, hg qc hq⟩
  · intro qc hq
    exact (h.prepareQc qc hq).imp_right (hg qc)
  · intro qc hq
    exact (h.lockedQc qc hq).imp_right (hg qc)
  · intro x hx
    obtain ⟨qc, ht, hn, hq⟩ := h.decided x hx
    exact ⟨qc, ht, hn, hg qc hq⟩
  · intro e he msg hmsg qc hqc
    exact hg qc (h.sent e he msg hmsg qc hqc)

/-- A certificate that arrives is staged, and decides its node if it is the first
commit certificate of the view. -/
theorem Holds.receive {r : Replica C} (h : Holds n good vote r) {p : Phase} {v : Nat} {qc : QC C}
    (ht : qc.msgType = msgTypeOf p) (hv : qc.view = v) (hg : good qc) :
    Holds n good vote (r.withRs (receiveQc p v qc)) := by
  have hs := h.stage ht hv hg
  rw [Replica.withRs, receiveQc_eq]
  split
  · rename_i hp
    cases hp.1
    have hd := hs.decide ht hg
    rw [Replica.withRs, Replica.withRs, stageQc_eq] at hd
    rw [stageQc_eq]
    exact hd
  · rw [Replica.withRs, stageQc_eq] at hs
    rw [stageQc_eq]
    exact hs

/-- A vote that arrives is counted once. -/
theorem Holds.count {r : Replica C} (h : Holds n good vote r) {p : Phase} {view voter : Nat}
    {nh : C.Hash} {sig : C.Sig} (hv : vote p view voter nh sig) :
    Holds n good vote (r.withRs (recordVote p view voter nh sig)) := by
  refine h.viewData ⟨(h.views view).proposal, ?_, (h.views view).newViews⟩
  intro p' voter' nh' sig' hget
  dsimp only at hget
  rw [Function.update_apply] at hget
  split at hget
  · subst p'
    rcases EntryMap.get?_insertNew hget with hold | ⟨rfl, hnew, _⟩
    · exact (h.views _).votes p voter' nh' sig' hold
    · cases hnew
      exact hv
  · exact (h.views _).votes p' voter' nh' sig' hget

theorem Holds.collect {r : Replica C} (h : Holds n good vote r) {view sender : Nat}
    {justify : Option (QC C)} (hq : ∀ qc, justify = some qc → good qc) :
    Holds n good vote (r.withRs (recordNewView view sender justify)) := by
  refine h.viewData ⟨(h.views view).proposal, (h.views view).votes, ?_⟩
  intro sender' qc hget
  rcases EntryMap.get?_insertNew hget with hold | ⟨rfl, hnew, _⟩
  · exact (h.views _).newViews sender' qc hold
  · exact hq qc hnew.symm

theorem Holds.move {r r' : Replica C} (h : Holds n good vote r)
    (hf : Feeds keys arrives w n good vote r'.effects) (hm : Move keys arrives w r r') :
    Holds n good vote r' := by
  cases hm with
  | stash view node justify sender arrived leader sigs parent =>
    refine h.stash view parent ?_
    intro qc he
    subst justify
    exact hf.certs _ arrived qc (by simp [Wire.certs]) (h.quorum ▸ sigs)
  | receive ty p view qc sender arrived leader phase type same sigs =>
    have hg : good qc := hf.certs _ arrived qc (by simp [Wire.certs]) (h.quorum ▸ sigs)
    exact h.receive type same hg
  | count ty p view nh voter sig arrived leader phase signed =>
    cases votedPhase_eq phase
    exact h.count (hf.votes p view nh voter sig arrived signed)
  | collect view justify sender next arrived added leader sigs =>
    apply h.collect
    intro qc he
    subst justify
    exact hf.certs _ arrived qc (by simp [Wire.certs]) (h.quorum ▸ sigs)
  | ingest k req input out queued ran => exact { h with }
  | enter timeout =>
    have ht : Holds n good vote (r.withRs (fun rs => { rs with timeoutIntervalMs := timeout })) :=
      { h with }
    exact ht.enter _
  | propose newViews leaf leader once read enough parent height inRange block =>
    have hgood : ∀ qc, highQc newViews = some qc → good qc := by
      intro qc hq
      obtain ⟨sender, hmem⟩ := highQc_mem hq
      exact (h.views _).newViews sender qc (EntryMap.get?_eq_some.mpr (read.mem_iff.mp hmem))
    have hs := h.stash r.rs.view parent hgood
    have hv := hs.views r.rs.view
    refine (hs.viewData ⟨hv.proposal, hv.votes, hv.newViews⟩).emit ?_
    intro msg hmsg qc hqc
    cases hmsg
    exact hgood qc (Option.mem_toList.mp hqc)
  | skip =>
    have hv := h.views r.rs.view
    exact h.viewData ⟨hv.proposal, hv.votes, hv.newViews⟩
  | prepare leaf high proposal once valid safe =>
    refine h.cast .prepare (nodeHash leaf)
      (hf.cast _ _ _ (r.rs.validationResult (nodeHash leaf)) ?_)
    simp [castVote_eq]
  | certify p ord qc leader formed =>
    obtain ⟨ht, hv, hlen, hnodup, hsigs⟩ := formQc_spec formed
    have hg : good qc := by
      refine hf.formed p qc ht (h.quorum ▸ hlen) hnodup ?_
      intro i sig hi
      rw [hv]
      exact (h.views _).votes p i qc.nodeHash sig (hsigs i sig hi)
    have hd := h.views r.rs.view
    have hb : Holds n good vote (r.withRs (fun rs => rs.vdMut rs.view (fun d =>
        { d with broadcast := Function.update d.broadcast p true }))) :=
      h.viewData ⟨hd.proposal, hd.votes, hd.newViews⟩
    refine (hb.stage ht hv hg).emit ?_
    intro msg hmsg qc' hqc
    cases hmsg
    cases List.mem_singleton.mp hqc
    exact hg
  | preCommit qc seen once staged =>
    obtain ⟨ht, _, hg⟩ := h.staged _ _ _ staged
    have hp : Holds n good vote (r.withRs (holdPrepare qc)) :=
      { h with prepareQc := by rintro _ ⟨⟩; exact ⟨ht, hg⟩ }
    refine hp.cast .preCommit qc.nodeHash (hf.cast _ _ _ (r.rs.validationResult qc.nodeHash) ?_)
    simp [castVote_eq, holdPrepare]
  | commit qc seen once staged =>
    obtain ⟨ht, _, hg⟩ := h.staged _ _ _ staged
    have hp : Holds n good vote (r.withRs (holdLock qc)) :=
      { h with lockedQc := by rintro _ ⟨⟩; exact ⟨ht, hg⟩ }
    refine hp.cast .commit qc.nodeHash (hf.cast _ _ _ (r.rs.validationResult qc.nodeHash) ?_)
    simp [castVote_eq, holdLock]
  | decide qc staged =>
    obtain ⟨ht, _, hg⟩ := h.staged _ _ _ staged
    exact h.decide ht hg
  | execute decided nh node r' known path found next valid applied =>
    obtain ⟨hrs, _, heff⟩ := applyNode_frame applied
    obtain ⟨rs', live, root, reqs, effects⟩ := r'
    dsimp only at hrs heff
    rw [heff]
    rw [hrs]
    refine { h with sent := sent_append h.sent ?_ }
    intro e he msg hmsg
    cases List.mem_singleton.mp he
    cases hmsg
  | kick leafHash node block input fresh idle found read cmd start =>
    unfold submitValidation
    refine Holds.emit ?_ ?_
    · exact { h with }
    intro msg hmsg
    cases hmsg

end
end ZkStf
