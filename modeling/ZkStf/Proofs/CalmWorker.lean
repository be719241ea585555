import ZkStf.Proofs.CalmOrder

namespace ZkStf
open ZkStf.Basis
open ZkStf.Basis.Ballots
variable {C : Crypto}

/-- There is a verdict on the block of a height. -/
def Cluster.Judged (K : Cluster C) (r : Replica C) (k : Nat) : Prop :=
  (r.rs.validationResult (nodeHash (K.workload.course k))).isSome

/-- Where the worker of a calm run stands after `m` requests: it has answered all
of them, or all but the last. -/
inductive Engaged (K : Cluster C) (r : Replica C) : Nat → Prop
  | idle (m : Nat) (free : r.rs.pendingValidation = none) (queue : r.valReqs = [])
      (judged : ∀ k < m, K.Judged r k) : Engaged K r m
  | busy (k : Nat) (req : ValidateRequest C) (input : State)
      (pending : r.rs.pendingValidation = some (nodeHash (K.workload.course k)))
      (queue : r.valReqs = [(req, input)]) (names : req.nodeHash = nodeHash (K.workload.course k))
      (unjudged : ¬ K.Judged r k) (judged : ∀ b < k, K.Judged r b) : Engaged K r (k + 1)

/-- The blocks were handed to the worker in their order. -/
structure Queued (K : Cluster C) (r : Replica C) : Prop where
  worker : ∃ m ≤ K.numBlocks, r.submitted = K.workload.firstBlocks m ∧
    (∀ k < K.numBlocks, K.Judged r k → k < m) ∧ Engaged K r m
  cached : ∀ h, (r.rs.postStateByNode h).isSome → (r.rs.validationResult h).isSome

/-- Where the build checks its sums, those of a re-executing node fit: each block,
applied in its turn, and the sleep of a slow node after it. -/
def SumsFit (w : Wiring C) : Prop :=
  w.overflowChecks = true → ∀ delay, w.validator = .reexecute delay → ∀ height block,
    w.workload.block height = .ok block → delay.toNat * block.info.txsTotal.toNat < 2 ^ 64 ∧
      ∀ state txs,
        replay w.workload (genesisState w.workload.manifest) height.toNat = some state →
        w.workload.transactions height = some txs → overflows (state, 0) txs = []

section
variable {K : Cluster C} {rs : Nat → Replica C} {i : Nat} {r r' : Replica C}

theorem Queued.start (w : Wiring C) (n : Nat) : Queued K (startProtocol w (bootReplica w n)) := by
  have hsame : SameWorker (bootReplica w n) (startProtocol w (bootReplica w n)) :=
    { sameWorker_enter w 1 ((bootReplica w n).withRs (fun rs => { rs with view := 0 })) with }
  refine ⟨⟨0, Nat.zero_le _, hsame.submitted, ?_, .idle 0 hsame.pending hsame.queue ?_⟩, ?_⟩
  · intro k _ hk
    rw [Cluster.Judged, hsame.verdicts] at hk
    cases hk
  · intro k hk
    omega
  · intro h hh
    rw [startProtocol, enterNewView_eq] at hh
    cases hh

theorem ingest_postState {out : ValidateOutcome C} {x : C.Hash} {rs : ReplicaState C}
    (h : ((ingestValidation out rs).postStateByNode x).isSome) :
    x = out.nodeHash ∨ (rs.postStateByNode x).isSome := by
  unfold ingestValidation at h
  cases hp : out.postState with
  | none => exact Or.inr (by simpa [hp] using h)
  | some post =>
    by_cases hx : x = out.nodeHash
    · exact Or.inl hx
    · exact Or.inr (by simpa [hp, Function.update_of_ne hx] using h)

theorem applyNode_postState {nh x : C.Hash} {node : Node C} (h : applyNode nh node r = .ok r')
    (hx : (r'.rs.postStateByNode x).isSome) : (r.rs.postStateByNode x).isSome := by
  rw [(applyNode_states h).2, Function.update_apply] at hx
  split at hx
  · cases hx
  · exact hx

/-- The answer taken in is the one that is waited for. -/
theorem Queued.ingest (hinj : Function.Injective (nodeHash (C := C))) (h : Queued K r)
    {w : Wiring C} {k : Nat} {req : ValidateRequest C} {input : State} {out : ValidateOutcome C}
    (hk : r.valReqs[k]? = some (req, input))
    (hran : runValidation w.overflowChecks w.workload req input w.validator = .ok out) :
    Queued K ({ r with valReqs := r.valReqs.eraseIdx k }.withRs (ingestValidation out)) := by
  have hsmall := numBlocks_small K
  obtain ⟨m, hm, hsub, hjudged, hworker⟩ := h.worker
  cases hworker with
  | idle m free queue judged =>
    rw [queue] at hk
    cases hk
  | busy a req' input' pending queue names unjudged judged =>
    rw [queue] at hk
    obtain rfl : k = 0 := by
      cases k with
      | zero => rfl
      | succ k => cases hk
    cases hk
    have hverdicts : ∀ x, (({ r with valReqs := r.valReqs.eraseIdx 0 }.withRs
        (ingestValidation out)).rs.validationResult x).isSome ↔
        x = nodeHash (K.workload.course a) ∨ (r.rs.validationResult x).isSome := by
      intro x
      simp only [withRs_rs, ingestValidation, runValidation_nodeHash hran, names,
        Function.update_apply]
      split <;> simp_all
    refine ⟨⟨a + 1, hm, hsub, ?_, .idle (a + 1) ?_ (by simp [queue]) ?_⟩, ?_⟩
    · intro b hb hj
      rcases (hverdicts _).mp hj with hsame | hj
      · have := course_inj hinj (by omega) (by omega) hsame
        omega
      · exact hjudged b hb hj
    · simp [ingestValidation, runValidation_nodeHash hran, names, pending]
    · intro b hb
      refine (hverdicts _).mpr ?_
      obtain hb | rfl : b < a ∨ b = a := by omega
      · exact Or.inr (judged b hb)
      · exact Or.inl rfl
    · intro x hx
      refine (hverdicts x).mpr ?_
      by_cases hsame : x = nodeHash (K.workload.course a)
      · exact Or.inl hsame
      · right
        rcases ingest_postState hx with he | hx
        · rw [runValidation_nodeHash hran] at he
          exact absurd (he.trans names) hsame
        · exact h.cached x hx

/-- A block is handed out only once there is a verdict on the one before. -/
theorem Queued.ready (h : Queued K (rs i)) (hinj : Function.Injective (nodeHash (C := C)))
    (hgen : ∀ node : Node C, nodeHash node ≠ genesisHash C) (hc : Calmed K rs) (hi : K.Honest i)
    {k : Nat} (hk : k + 1 < K.numBlocks) {input : State}
    (hstart : inputState (rs i) (K.workload.course (k + 1)) = some input) :
    K.Judged (rs i) k := by
  have hsmall := numBlocks_small K
  rcases inputState_ready hstart with hroot | ⟨node, hget, hle⟩ | hcached
  · exact absurd hroot (hgen _)
  · rw [course_parent] at hget
    obtain rfl := hinj ((hc.candid.sane.holds i hi).tree _ _ hget)
    have hnat := course_toNat K.workload (show k < 2 ^ 64 by omega)
    rw [asI64_of_lt (by omega), hnat] at hle
    obtain ⟨m, hm, _, hdone⟩ := (hc.marching i hi).executed
    exact (hdone k (by omega)).1
  · exact h.cached _ hcached

/-- What is handed out comes right after what was handed out before. -/
theorem Queued.kick (h : Queued K (rs i)) (hinj : Function.Injective (nodeHash (C := C)))
    (hgen : ∀ node : Node C, nodeHash node ≠ genesisHash C) (hc : Calmed K rs) (hi : K.Honest i)
    {leafHash : C.Hash} {node : Node C} {input : State} (block : BlockRef C)
    (hfresh : (rs i).rs.validationResult leafHash = none)
    (hidle : (rs i).rs.pendingValidation ≠ some leafHash)
    (hget : (rs i).rs.tree.get? leafHash = some node)
    (hstart : inputState (rs i) node = some input) :
    Queued K (submitValidation leafHash node block input (rs i)) := by
  obtain ⟨k, hk, rfl⟩ := (hc.course i hi).tree leafHash node hget
  obtain rfl := (hc.candid.sane.holds i hi).tree _ _ hget
  obtain ⟨m, hm, hsub, hjudged, hworker⟩ := h.worker
  have hopen : ¬ K.Judged (rs i) k := by simp [Cluster.Judged, hfresh]
  have hbefore : k ≤ m := by
    cases k with
    | zero => exact Nat.zero_le _
    | succ k => exact hjudged k (by omega) (h.ready hinj hgen hc hi hk hstart)
  cases hworker with
  | idle m free queue judged =>
    obtain rfl : k = m := by
      by_contra hne
      exact hopen (judged k (by omega))
    refine ⟨⟨k + 1, hk, ?_, fun b hb hj => Nat.lt_succ_of_lt (hjudged b hb hj),
      .busy k _ input rfl (congrArg (· ++ _) queue) rfl hopen judged⟩, h.cached⟩
    rw [submitted_kick, hsub, Workload.firstBlocks, Workload.firstBlocks, List.range_succ]
    simp
  | busy a req' input' pending queue names unjudged judged =>
    -- the block waited for is this one, or comes before it
    exfalso
    rcases Nat.lt_trichotomy k a with hlt | rfl | hgt
    · exact hopen (judged k hlt)
    · exact hidle pending
    · obtain rfl : k = a + 1 := by omega
      exact unjudged (h.ready hinj hgen hc hi hk hstart)

theorem Queued.move (h : Queued K (rs i)) (hinj : Function.Injective (nodeHash (C := C)))
    (hgen : ∀ node : Node C, nodeHash node ≠ genesisHash C) (hc : Calmed K rs) (hi : K.Honest i)
    {keys : Nat → Option C.Key} {arrives : Wire C → Prop}
    (hm : Move keys arrives (K.wiring i) (rs i) r') : Queued K r' := by
  have hsame : SameWorker (rs i) r' →
      (∀ x, (r'.rs.postStateByNode x).isSome → ((rs i).rs.postStateByNode x).isSome) →
      Queued K r' := by
    intro hs hcache
    obtain ⟨m, hle, hsub, hjudged, hworker⟩ := h.worker
    have hverdicts : ∀ k, K.Judged r' k ↔ K.Judged (rs i) k := by
      intro k
      rw [Cluster.Judged, Cluster.Judged, hs.verdicts]
    refine ⟨⟨m, hle, hs.submitted.trans hsub, fun k hk hj => hjudged k hk ((hverdicts k).mp hj),
      ?_⟩, ?_⟩
    · cases hworker with
      | idle m free queue judged =>
        exact .idle m (hs.pending.trans free) (hs.queue.trans queue)
          (fun k hk => (hverdicts k).mpr (judged k hk))
      | busy k req input pending queue names unjudged judged =>
        exact .busy k req input (hs.pending.trans pending) (hs.queue.trans queue) names
          (fun hj => unjudged ((hverdicts k).mp hj)) (fun b hb => (hverdicts b).mpr (judged b hb))
    · intro x hx
      rw [hs.verdicts]
      exact h.cached x (hcache x hx)
  cases hm with
  | ingest k req input out queued ran => exact h.ingest hinj queued ran
  | kick leafHash node block input fresh idle found read cmd start =>
    exact h.kick hinj hgen hc hi block fresh idle found start
  | execute decided nh node r' known path found next valid applied =>
    obtain ⟨hrs, hqueue, heff⟩ := applyNode_frame applied
    apply hsame
    · refine .of_effects heff (by simp [Effect.request]) ?_ ?_ hqueue
      all_goals rw [hrs]
    · exact fun x hx => applyNode_postState applied hx
  | receive ty p view qc =>
    have hrs : ((rs i).withRs (receiveQc p view qc)).rs = _ :=
      (receiveQc_eq p view qc (rs i).rs).trans (by rw [stageQc_eq])
    refine hsame ⟨?_, ?_, rfl, rfl⟩ (fun x hx => ?_)
    · rw [hrs]
      rfl
    · rw [hrs]
      rfl
    · rw [hrs] at hx
      exact hx
  | enter timeout =>
    refine hsame { sameWorker_enter (K.wiring i) _ ((rs i).withRs _) with } (fun x hx => ?_)
    rw [enterNewView_eq] at hx
    exact hx
  | propose newViews leaf =>
    exact hsame (.of_effects rfl (by simp [Effect.request]) rfl rfl rfl) (fun _ hx => hx)
  | prepare leaf =>
    refine hsame (sameWorker_cast _ _ _ _) (fun x hx => ?_)
    rw [castVote_eq] at hx
    exact hx
  | preCommit qc =>
    refine hsame { sameWorker_cast _ _ _ ((rs i).withRs (holdPrepare qc)) with } (fun x hx => ?_)
    rw [castVote_eq] at hx
    exact hx
  | commit qc =>
    refine hsame { sameWorker_cast _ _ _ ((rs i).withRs (holdLock qc)) with } (fun x hx => ?_)
    rw [castVote_eq] at hx
    exact hx
  | certify p ord qc =>
    have hrs := certify_eq p qc (rs i)
      (.phaseQc (announcedBy p) (rs i).rs.view qc (K.wiring i).myId)
    refine hsame (.of_effects rfl (by simp [Effect.request]) ?_ ?_ rfl) (fun x hx => ?_)
    · rw [hrs]
      rfl
    · rw [hrs]
      rfl
    · rw [hrs] at hx
      exact hx
  | _ => exact hsame ⟨rfl, rfl, rfl, rfl⟩ (fun _ hx => hx)

theorem Cluster.Calm.queued (hinj : Function.Injective (nodeHash (C := C)))
    (hgen : ∀ node : Node C, nodeHash node ≠ genesisHash C) (hK : K.Faultless)
    {log : Nat → List (Event C)} {s : System C} (hcalm : K.Calm log s) (hi : K.Honest i) :
    Queued K (s i).replica := by
  refine (calmed_invariant (P := fun rs => ∀ i, K.Honest i → Queued K (rs i)) hinj hgen hK
    (fun i _ => Queued.start (K.wiring i) K.n) ?_ hcalm).2 i hi
  intro rs i r' hi hc hq hd j hj
  by_cases hji : j = i
  · subst j
    rw [Function.update_self]
    exact (hq i hi).move hinj hgen hc hi hd.move
  · rw [Function.update_of_ne hji]
    exact hq j hj

theorem Engaged.short {m : Nat} (h : Engaged K r m) : r.valReqs.length ≤ 1 := by
  cases h with
  | idle m free queue judged => simp [queue]
  | busy k req input pending queue names unjudged judged => simp [queue]

/-- In a calm run the blocks are validated one at a time and in their order, each
of them once. -/
theorem calm_validates_in_order (hinj : Function.Injective (nodeHash (C := C)))
    (hgen : ∀ node : Node C, nodeHash node ≠ genesisHash C) (hK : K.Faultless)
    {log : Nat → List (Event C)} {s : System C} (hcalm : K.Calm log s) (hi : K.Honest i) :
    (s i).replica.valReqs.length ≤ 1 ∧ (s i).replica.submitted.Nodup ∧
      ∃ m ≤ K.numBlocks, (s i).replica.submitted = K.workload.firstBlocks m := by
  have hsmall := numBlocks_small K
  obtain ⟨m, hm, hsub, _, hworker⟩ := (hcalm.queued hinj hgen hK hi).worker
  refine ⟨hworker.short, ?_, m, hm, hsub⟩
  rw [hsub]
  refine List.Nodup.map_on ?_ List.nodup_range
  intro a ha b hb hab
  have ha := List.mem_range.mp ha
  have hb := List.mem_range.mp hb
  exact course_inj hinj (by omega) (by omega) hab

theorem pair_validates : ∃ log s, Pair.cluster.Calm log s ∧
    (s 1).replica.submitted = Pair.cluster.workload.firstBlocks 2 := by
  have hplay : (Pair.cluster.rehearse (Pair.cues.take 23) (System.start Pair.cluster)).any
      (fun s => decide ((s 1).replica.submitted.length = 2)) = true := by
    decide +kernel
  obtain ⟨log, s, hcalm, hc⟩ := rehearse_exists hplay
  obtain ⟨_, _, m, _, hsub⟩ := calm_validates_in_order tabled_nodes_apart tabled_nodes_fresh
    Pair.faultless hcalm (i := 1) (by decide)
  have hlen := of_decide_eq_true hc
  rw [hsub, Workload.firstBlocks, List.length_map, List.length_range] at hlen
  exact ⟨log, s, hcalm, hlen ▸ hsub⟩

theorem runValidation_runs {checks : Bool} {wl : Workload C} {req : ValidateRequest C}
    {input : State} {v : Validator C}
    (h : checks = true → ∀ delay, v = .reexecute delay → ∀ txs,
      wl.transactions req.txsPath = some txs →
      overflows (input, 0) txs = [] ∧ delay.toNat * req.txsTotal.toNat < 2 ^ 64) :
    ∃ out, runValidation checks wl req input v = .ok out := by
  cases v with
  | reexecute delay =>
    dsimp only [runValidation]
    split
    · exact ⟨_, rfl⟩
    rename_i txs htxs
    split
    · rename_i hover
      obtain ⟨hnone, hsleep⟩ := h hover.1 delay rfl txs htxs
      rcases hover.2 with hsome | hlong
      · exact absurd hnone hsome
      · omega
    · exact ⟨_, rfl⟩
  | verify vkey =>
    dsimp only [runValidation]
    repeat' split
    all_goals exact ⟨_, rfl⟩

theorem Calmed.tree_consistent (h : Calmed K rs)
    (hgen : ∀ node : Node C, nodeHash node ≠ genesisHash C)
    (hinj : Function.Injective (nodeHash (C := C))) (hi : K.Honest i) :
    TreeConsistent (rs i).rs.tree := by
  have hsmall := numBlocks_small K
  rintro ⟨x, node⟩ hentry
  obtain ⟨k, hk, rfl⟩ := (h.course i hi).tree x node (EntryMap.get?_eq_some.mpr hentry)
  have hheight := course_toNat K.workload (show k < 2 ^ 64 by omega)
  cases k with
  | zero =>
    refine ⟨⟨fun _ => rfl, fun _ => rfl⟩, ?_⟩
    intro parent hparent
    exact absurd ((h.candid.sane.holds i hi).tree _ _ hparent) (hgen parent)
  | succ k =>
    refine ⟨⟨fun hp => absurd hp (hgen _), ?_⟩, ?_⟩
    · intro hzero
      have hcast : (K.workload.course (k + 1)).height.toNat = 0 := by
        rw [show (K.workload.course (k + 1)).height = 0 from hzero]
        rfl
      omega
    · intro parent hparent
      obtain rfl := hinj ((h.candid.sane.holds i hi).tree _ _ hparent)
      rw [hheight, course_toNat K.workload (show k < 2 ^ 64 by omega)]

/-- The worker of a calm run gives an answer to each request. -/
theorem calm_answer_runs (hinj : Function.Injective (nodeHash (C := C)))
    (hgen : ∀ node : Node C, nodeHash node ≠ genesisHash C) (hK : K.Faultless)
    (hsums : SumsFit (K.wiring i)) {log : Nat → List (Event C)} {s : System C}
    (hcalm : K.Calm log s) (hi : K.Honest i) {req : ValidateRequest C} {input : State}
    (hmem : (req, input) ∈ (s i).replica.valReqs) :
    ∃ out, runValidation (K.wiring i).overflowChecks (K.wiring i).workload req input
      (K.wiring i).validator = .ok out := by
  have hsmall := numBlocks_small K
  have hc := hcalm.calmed hinj hgen hK
  apply runValidation_runs
  intro hchecks delay hv txs htxs
  have hread := (hc.course i hi).queue _ hmem
  obtain ⟨block, hblock, _, htotal⟩ := hread
  obtain ⟨hsleep, hfits⟩ := hsums hchecks delay hv _ block hblock
  refine ⟨?_, by rw [htotal]; exact hsleep⟩
  refine hfits input txs ?_ htxs
  have hreexec : (K.wiring i).validator.reexecutes = true := by rw [hv]; rfl
  obtain ⟨node, hget, hpath, _, hreplay⟩ := (reach_folded hinj hreexec (hcalm.reach.machine i)
    (hc.tree_consistent hgen hinj hi)).queued _ hmem
  rw [hpath]
  apply hreplay
  -- what is under validation has no verdict, so it is not executed yet
  obtain ⟨m, _, _, _, hworker⟩ := (hcalm.queued hinj hgen hK hi).worker
  cases hworker with
  | idle m free queue judged =>
    rw [queue] at hmem
    cases hmem
  | busy k req' input' pending queue names unjudged judged =>
    rw [queue] at hmem
    cases List.mem_singleton.mp hmem
    rw [names] at hget
    obtain ⟨a, ha, rfl⟩ := (hc.course i hi).tree _ node hget
    have hsame := (hc.candid.sane.holds i hi).tree _ _ hget
    obtain ⟨done, hlast, _, hdone⟩ := (hc.marching i hi).executed
    have hlast' : (s i).replica.rs.lastExecutedHeight = (done : Int) - 1 := hlast
    rw [course_toNat K.workload (show a < 2 ^ 64 by omega), hlast']
    by_contra hexec
    apply unjudged
    rw [Cluster.Judged, ← hsame]
    exact (hdone a (by omega)).1

section
variable {log : Nat → List (Event C)} {s : System C}

theorem calm_event_runs (hinj : Function.Injective (nodeHash (C := C)))
    (hgen : ∀ node : Node C, nodeHash node ≠ genesisHash C) (hK : K.Faultless)
    (hw : WellFormed K.workload) (hsums : SumsFit (K.wiring i)) (hcalm : K.Calm log s)
    (hi : K.Honest i) (ev : Event C)
    (hpost : ∀ msg, ev = .message msg → K.Posted s.replicas i msg)
    (htimer : ∀ v, ev = .timer v → v < (s i).replica.rs.view) :
    ∃ r', handleEvent K.peerKeys (K.wiring i) (s i).replica ev = .ok r' := by
  cases ev with
  | message msg =>
    have hs := reach_sound hinj (hcalm.reach.machine i)
    exact (message_iff hinj hw hs msg).mpr
      ((hcalm.calmed hinj hgen hK).handles hK (hpost msg rfl))
  | timer v =>
    have hlt := htimer v rfl
    exact ⟨_, by rw [handleEvent, handleTimer, if_pos (by omega)]⟩
  | validated k =>
    rw [handleEvent]
    split
    · exact ⟨_, rfl⟩
    rename_i req input hk
    obtain ⟨out, hran⟩ := calm_answer_runs hinj hgen hK hsums hcalm hi (List.mem_of_getElem? hk)
    exact ⟨_, map_ok.mpr ⟨out, hran, rfl⟩⟩

/-- No node crashes in a calm run: every rule of its pass runs, and so does the
handler of everything that may happen next. -/
theorem calm_never_crashes (hinj : Function.Injective (nodeHash (C := C)))
    (hgen : ∀ node : Node C, nodeHash node ≠ genesisHash C) (hacyc : Acyclic C) (hK : K.Faultless)
    (hw : WellFormed K.workload) (hroots : ∀ i, K.Honest i → RootsChain (K.wiring i))
    (hsums : SumsFit (K.wiring i)) (hcalm : K.Calm log s) (hi : K.Honest i) :
    (∀ (ord : Order) (rule : Rule), ∃ r',
      rule.run (K.wiring i) ord (s i).replica = .ok r') ∧
    ∀ ev, (∀ msg, ev = .message msg → K.Posted s.replicas i msg) →
      (∀ v, ev = .timer v → v < (s i).replica.rs.view) →
      ∃ r', handleEvent K.peerKeys (K.wiring i) (s i).replica ev = .ok r' :=
  ⟨calm_rule_runs hinj hgen hacyc hK hw hroots hcalm hi,
    calm_event_runs hinj hgen hK hw hsums hcalm hi⟩

end

theorem Pair.sums_fit (i : Nat) : SumsFit (Pair.cluster.wiring i) := by
  rintro _ _ ⟨⟩ height block _
  refine ⟨by simp, ?_⟩
  rintro state _ _ ⟨⟩
  rfl

/-- The timer of the second view finds its node in the third. -/
theorem pair_wakes_up : ∃ log s, Pair.cluster.Calm log s ∧ 2 < (s 0).replica.rs.view ∧
    ∃ r', handleEvent Pair.cluster.peerKeys (Pair.cluster.wiring 0) (s 0).replica (.timer 2) =
      .ok r' := by
  have hplay : (Pair.cluster.rehearse (Pair.cues.take 23) (System.start Pair.cluster)).any
      (fun s => decide (2 < (s 0).replica.rs.view)) = true := by
    decide +kernel
  obtain ⟨log, s, hcalm, hc⟩ := rehearse_exists hplay
  have hview := of_decide_eq_true hc
  refine ⟨log, s, hcalm, hview, ?_⟩
  apply (calm_never_crashes tabled_nodes_apart tabled_nodes_fresh Quartet.acyclic Pair.faultless
    Quartet.threeBlocks_wellFormed (fun i _ => Pair.roots_chain i) (Pair.sums_fit 0) hcalm (i := 0)
    (by decide)).2 (.timer 2)
  · simp
  · rintro v ⟨⟩
    exact hview

end
end ZkStf
