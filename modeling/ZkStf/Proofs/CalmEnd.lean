import ZkStf.Proofs.CalmPost

namespace ZkStf
open ZkStf.Basis
open ZkStf.Basis.Ballots
variable {C : Crypto}

/-- Nothing is left to happen: every node waits, and whoever has not finished has
taken all that is in the post for it, the answers of its worker, and the timers of
the views it has left. -/
structure Cluster.Spent (K : Cluster C) (log : Nat → List (Event C)) (s : System C) : Prop where
  idle : ∀ i, K.Honest i → (s i).todo = []
  heard : ∀ i, K.Honest i → ¬ finished (K.wiring i) (s i).replica →
    ∀ msg, K.Posted s.replicas i msg → .message msg ∈ log i
  answered : ∀ i, K.Honest i → ¬ finished (K.wiring i) (s i).replica →
    (s i).replica.valReqs = []
  woken : ∀ i, K.Honest i → ¬ finished (K.wiring i) (s i).replica →
    ∀ v ms, .armTimer v ms ∈ (s i).replica.effects → v < (s i).replica.rs.view →
      .timer v ∈ log i

/-- A node that waits for nothing but further messages. -/
structure Becalmed (K : Cluster C) (rs : Nat → Replica C) (i : Nat) : Prop where
  rests : ∀ rule : Rule, rule.Rests (K.wiring i) (rs i)
  heard : ∀ msg, K.Posted rs i msg → Absorbed (rs i) msg
  caught : Caught (rs i)
  free : (rs i).rs.pendingValidation = none
  kicked : ∀ x node block input, ¬ Kickable (K.wiring i) (rs i) x node block input

/-- A calm run, with what holds of each of its nodes alone. -/
structure Steady (K : Cluster C) (rs : Nat → Replica C) : Prop extends Calmed K rs where
  outspoken : ∀ i, K.Honest i → Outspoken (K.wiring i) (rs i)
  tidy : ∀ i, K.Honest i → Tidy (rs i)
  matched : ∀ i, K.Honest i → Matched (rs i).rs
  blocks : ∀ i, K.Honest i → Blocks (K.wiring i) (rs i)

section
variable {K : Cluster C} {rs : Nat → Replica C} {log : Nat → List (Event C)} {s : System C}
  {i j v : Nat} {p : Phase} {qc : QC C}

theorem Cluster.Calm.steady (hinj : Function.Injective (nodeHash (C := C)))
    (hgen : ∀ node : Node C, nodeHash node ≠ genesisHash C) (hK : K.Faultless)
    (hcalm : K.Calm log s) : Steady K s.replicas where
  toCalmed := hcalm.calmed hinj hgen hK
  outspoken i _ := reach_outspoken (hcalm.reach.machine i)
  tidy i _ := reach_tidy (hcalm.reach.machine i)
  matched i _ := reach_invariant (P := fun r => Matched r.rs) .start
    (fun _ _ _ h hm => h.move hm) (hcalm.reach.machine i)
  blocks i _ := reach_blocks hinj (hcalm.reach.machine i)

theorem Cluster.Spent.becalmed (hinj : Function.Injective (nodeHash (C := C)))
    (hgen : ∀ node : Node C, nodeHash node ≠ genesisHash C) (hK : K.Faultless)
    (hcalm : K.Calm log s) (hspent : K.Spent log s) (hi : K.Honest i)
    (hrunning : ¬ finished (K.wiring i) (s i).replica) : Becalmed K s.replicas i := by
  have hreach := hcalm.reach.machine i
  have hidle := hspent.idle i hi
  obtain ⟨hwatched, habsorbed⟩ := calm_watched hinj hgen hK hcalm i hi
  have hfree : (s i).replica.rs.pendingValidation = none := by
    cases hpend : (s i).replica.rs.pendingValidation with
    | none => rfl
    | some x =>
      obtain ⟨entry, hmem, _⟩ := (reach_sound hinj hreach).occupied x hpend
      rw [hspent.answered i hi hrunning] at hmem
      cases hmem
  refine ⟨?_, ?_, idle_caught hinj hgen hreach hidle, hfree, idle_kicked hreach hidle hfree⟩
  · intro rule
    apply hwatched.rests _ rule (by simp [hidle])
    by_cases hfirst : (s i).replica.rs.view = 1
    · exact Or.inl hfirst
    · have hone := reach_started hreach
      obtain ⟨ms, harmed⟩ := (reach_outspoken hreach).timed ((s i).replica.rs.view - 1)
        (by omega) (by omega)
      exact Or.inr (hspent.woken i hi hrunning _ ms harmed (by omega))
  · intro msg hp
    exact habsorbed msg (hspent.heard i hi hrunning msg hp)

/-- Whoever waits has seen every certificate that was announced. -/
theorem Becalmed.seen (hs : Becalmed K rs i) (hK : K.Faultless) (h : Steady K rs) (hi : K.Honest i)
    (ha : K.Announced rs p v qc) : ((rs i).rs.viewData v).seen p = true := by
  have hlead := leader_honest hK.free hi v
  obtain ⟨e, he, hm⟩ := ha
  have haddr := h.candid.addressed _ e he
  cases e with
  | broadcast msg =>
    cases hm
    by_cases hme : K.leader v = i
    · rw [hme] at he
      obtain ⟨q, hq, hmark⟩ := (h.tidy i hi).marked (.announcement (announcedBy p) v)
        (List.mem_filterMap.mpr ⟨_, he, rfl⟩)
      obtain rfl := announcedBy_inj hq
      exact ((h.outspoken i hi).announced p v hmark).2
    · exact hs.heard _ ⟨_, hlead, hme, Or.inl he⟩ p rfl
  | sendTo peer msg =>
    cases hm
    exact haddr.elim
  | _ => cases hm

/-- A view whose decision was announced is not the view of anyone who waits. -/
theorem Becalmed.undecided (hs : Becalmed K rs i) (hK : K.Faultless) (h : Steady K rs)
    (hi : K.Honest i) : ¬ K.Announced rs .commit (rs i).rs.view qc := by
  intro ha
  have hseen := hs.seen hK h hi ha
  rcases hs.rests .replicaDecide with hnot | hnone
  · rw [hseen] at hnot
    cases hnot
  · have hsome := h.matched i hi .commit _ hseen
    rw [hnone] at hsome
    cases hsome

theorem Steady.stored (h : Steady K rs) (hK : K.Faultless) (hi : K.Honest i) {leaf : Node C}
    {high : Option (QC C)} (hprop : ((rs i).rs.viewData v).proposal = some (leaf, high)) :
    K.OnCourse v leaf high := by
  have hlead := leader_honest hK.free hi v
  exact (h.course _ hlead).proposals v leaf high _
    ((h.candid.minutes i hi).stored v leaf high hprop hlead)

/-- Whoever waits has taken every proposal that was made. -/
theorem Becalmed.proposed (hs : Becalmed K rs i) (hK : K.Faultless) (h : Steady K rs)
    (hi : K.Honest i) {leaf : Node C} {high : Option (QC C)} {sender : Nat}
    (hsent : (rs (K.leader v)).HasSent (.proposal v leaf high sender)) :
    ((rs i).rs.viewData v).proposal.isSome ∧
      Known (rs i).rs.tree K.workload.course (v - 1) := by
  have hlead := leader_honest hK.free hi v
  by_cases hme : K.leader v = i
  · rw [hme] at hsent
    obtain ⟨hmark, _⟩ := (h.candid.minutes i hi).grounded v leaf high sender hsent
    have hsome := ((h.outspoken i hi).proposed v hmark).2
    obtain ⟨⟨leaf', high'⟩, hprop⟩ := Option.isSome_iff_exists.mp hsome
    have hstored := (h.outspoken i hi).stored v leaf' high' hprop
    rw [(h.stored hK hi hprop).leaf] at hstored
    exact ⟨hsome, hstored⟩
  · have hon := (h.course _ hlead).proposals v leaf high sender hsent
    obtain ⟨e, he, hm⟩ := hsent
    have haddr := h.candid.addressed _ e he
    cases e with
    | broadcast msg =>
      cases hm
      have habs := hs.heard _ ⟨_, hlead, hme, Or.inl he⟩
      rw [hon.leaf] at habs
      exact habs
    | sendTo peer msg =>
      cases hm
      exact haddr.elim
    | _ => cases hm

theorem Becalmed.certified_known (hs : Becalmed K rs i) (hK : K.Faultless) (h : Steady K rs)
    (hi : K.Honest i) (hq : K.Certifies (votesOf rs) qc) :
    Known (rs i).rs.tree K.workload.course (qc.view - 1) := by
  have hint : Intersecting K.Honest K.Quorum := Cluster.intersecting hi (by simp [hK.free])
  obtain ⟨x, hx, hvote⟩ := (h.candid.sane.prepared hint hq).voter hint
  obtain ⟨leaf, high, _, hprop⟩ := (h.candid.minutes x hx).prepared _ _ hvote
  exact (hs.proposed hK h hi (hprop (leader_honest hK.free hi _))).2

/-- The blocks of the views left are known and decided. -/
theorem Becalmed.left (hs : Becalmed K rs i) (hK : K.Faultless) (h : Steady K rs) (hi : K.Honest i)
    {k : Nat} (hk : k + 1 < (rs i).rs.view) :
    Known (rs i).rs.tree K.workload.course k ∧ K.Decided (rs i) k := by
  obtain ⟨qc, ha⟩ := (h.course i hi).left (k + 1) (by omega) hk
  obtain ⟨_, hview, hcert⟩ := announced_certifies hK.free h.candid h.course hi ha
  have hknown := hs.certified_known hK h hi hcert
  rw [hview] at hknown
  exact ⟨hknown, (h.marching i hi).recorded (k + 1) (by omega) hk⟩

theorem Steady.get (h : Steady K rs) (hinj : Function.Injective (nodeHash (C := C)))
    (hi : K.Honest i) {k : Nat} (hk : Known (rs i).rs.tree K.workload.course k) :
    (rs i).rs.tree.get? (nodeHash (K.workload.course k)) = some (K.workload.course k) := by
  obtain ⟨node, hnode⟩ := Option.isSome_iff_exists.mp hk
  rw [hnode, hinj ((h.candid.sane.holds i hi).tree _ _ hnode)]

/-- The first block starts from genesis as long as there is no verdict on it. -/
theorem Steady.input_first (h : Steady K rs) (hi : K.Honest i)
    (hv : (rs i).rs.validationResult (nodeHash (K.workload.course 0)) = none) :
    inputState (rs i) (K.workload.course 0) = some (rs i).liveState := by
  have hlast : ¬ 0 ≤ (rs i).rs.lastExecutedHeight := by
    intro hlast
    obtain ⟨m, hm, _, hdone⟩ := (h.marching i hi).executed
    have hsome := (hdone 0 (by omega)).1
    rw [hv] at hsome
    cases hsome
  have hroot : (K.workload.course 0).parent = genesisHash C := rfl
  unfold inputState
  rw [if_pos hroot, if_neg hlast]

/-- A block on top of an executed one starts from the state at hand. -/
theorem Steady.input_next (h : Steady K rs) (hinj : Function.Injective (nodeHash (C := C)))
    (hgen : ∀ node : Node C, nodeHash node ≠ genesisHash C) (hi : K.Honest i) {k : Nat}
    (hk : k < K.numBlocks) (hknown : Known (rs i).rs.tree K.workload.course k)
    (hlast : k ≤ (rs i).rs.lastExecutedHeight) :
    inputState (rs i) (K.workload.course (k + 1)) = some (rs i).liveState := by
  have hsmall := numBlocks_small K
  have hnat := course_toNat K.workload (show k < 2 ^ 64 by omega)
  have hheight : asI64 (K.workload.course k).height = k := by rw [asI64_of_lt (by omega), hnat]
  unfold inputState
  rw [course_parent, if_neg (hgen _), h.get hinj hi hknown]
  dsimp only
  rw [if_pos (by omega)]

/-- Whoever waits has a verdict on every block it knows the decided chain to. -/
theorem Becalmed.cleared (hs : Becalmed K rs i) (hinj : Function.Injective (nodeHash (C := C)))
    (hgen : ∀ node : Node C, nodeHash node ≠ genesisHash C) (h : Steady K rs) (hi : K.Honest i)
    {m : Nat} (hm : m ≤ K.numBlocks) (hknown : ∀ k < m, Known (rs i).rs.tree K.workload.course k)
    (hdecided : ∀ k, k + 1 < m → K.Decided (rs i) k) :
    ∀ k < m, Cleared (rs i).rs.validationResult K.workload.course k := by
  have hsmall := numBlocks_small K
  intro k
  induction k using Nat.strong_induction_on with
  | h k ih =>
    intro hk
    cases hv : (rs i).rs.validationResult (nodeHash (K.workload.course k)) with
    | some valid =>
      cases valid with
      | true => exact hv
      | false => exact absurd hv ((h.course i hi).verdicts _)
    | none =>
      have hget := h.get hinj hi (hknown k hk)
      obtain ⟨block, hblock⟩ := h.blocks i hi _ _ hget
      have hcmd : block.cmd = (K.workload.course k).cmd := by
        rw [course_cmd, ← course_height K.workload k]
        exact (cmd_of_block hblock).symm
      have hstart : inputState (rs i) (K.workload.course k) = some (rs i).liveState := by
        cases k with
        | zero => exact h.input_first hi hv
        | succ k =>
          refine h.input_next hinj hgen hi (by omega) (hknown k (by omega)) ?_
          exact hs.caught K.workload.course k (course_line _ (by omega)) (hdecided k hk)
            (fun a ha => hknown a (by omega)) (fun a ha => ih a (by omega) (by omega))
      have hkick : Kickable (K.wiring i) (rs i) (nodeHash (K.workload.course k))
          (K.workload.course k) block (rs i).liveState :=
        ⟨hv, by simp [hs.free], hget, hblock, hcmd, hstart⟩
      exact absurd hkick (hs.kicked _ _ _ _)

/-- Once the last block is decided, whoever waits has finished. -/
theorem Becalmed.finishes (hs : Becalmed K rs i) (hinj : Function.Injective (nodeHash (C := C)))
    (hgen : ∀ node : Node C, nodeHash node ≠ genesisHash C) (hK : K.Faultless) (h : Steady K rs)
    (hi : K.Honest i) (hview : (rs i).rs.view = K.numBlocks + 1) :
    finished (K.wiring i) (rs i) := by
  have hsmall := numBlocks_small K
  have hleft : ∀ k < K.numBlocks, Known (rs i).rs.tree K.workload.course k ∧ K.Decided (rs i) k :=
    fun k hk => hs.left hK h hi (by omega)
  have hclear := hs.cleared hinj hgen h hi le_rfl (fun k hk => (hleft k hk).1)
    (fun k hk => (hleft k (by omega)).2)
  change (K.numBlocks : Int) ≤ _
  cases hn : K.numBlocks with
  | zero =>
    obtain ⟨m, hm, _⟩ := (h.marching i hi).executed
    omega
  | succ k =>
    have hlast := hs.caught K.workload.course k (course_line _ (by omega)) (hleft k (by omega)).2
      (fun a ha => (hleft a (by omega)).1) (fun a ha => hclear a (by omega))
    omega

/-- Whoever has finished has left the view of the last block behind, and with it
everyone who waits. -/
theorem Steady.last_announced (h : Steady K rs) (hinj : Function.Injective (nodeHash (C := C)))
    (hK : K.Faultless) (hi : K.Honest i) (hdone : finished (K.wiring i) (rs i))
    (hv : 1 ≤ v) (hle : v ≤ K.numBlocks) : ∃ qc, K.Announced rs .commit v qc := by
  have hsmall := numBlocks_small K
  obtain ⟨m, hm, _, hunder⟩ := (h.marching i hi).executed
  change (K.numBlocks : Int) ≤ _ at hdone
  obtain ⟨_, top, hlow, htop, hdec⟩ := hunder (K.numBlocks - 1) (by omega)
  obtain ⟨u, qc, hnode, ha⟩ := (h.course i hi).decided _ hdec
  obtain ⟨hone, hlast, hnode'⟩ := announced_on_course hK.free h.candid h.course hi ha
  have hu : u - 1 = top := course_inj hinj (by omega) (by omega) (hnode'.symm.trans hnode)
  by_cases hvu : v = u
  · exact ⟨qc, hvu ▸ ha⟩
  · -- the leader of the last view has left the views before
    have hlead := leader_honest hK.free hi u
    obtain ⟨e, he, hsent⟩ := ha
    have haddr := h.candid.addressed _ e he
    cases e with
    | broadcast msg =>
      cases hsent
      exact (h.course _ hlead).left v hv (by have hreached := haddr.2.2.1; omega)
    | sendTo peer msg =>
      cases hsent
      exact haddr.elim
    | _ => cases hsent

/-- A node signs votes for the block of the view only. -/
theorem Steady.signed_on_course (h : Steady K rs) (hK : K.Faultless) (hi : K.Honest i)
    {nh : C.Hash} (hs : (rs i).Signed ⟨msgTypeOf p, v, nh⟩) :
    nh = nodeHash (K.workload.course (v - 1)) := by
  have hp := fun j hj => (h.course j hj).proposals
  have hcert : ∀ qc : QC C, qc.view = v → qc.nodeHash = nh → K.Certifies (votesOf rs) qc →
      nh = nodeHash (K.workload.course (v - 1)) := by
    intro qc hview hnode hq
    rw [← hview, ← hnode]
    exact (certified_on_course hK.free h.candid hp hi hq).2.2
  cases p with
  | prepare => exact (prepared_on_course hK.free h.candid hp hi hs).2.2
  | preCommit =>
    obtain ⟨⟨qc, _, hview, hnode, hq⟩, _⟩ := (h.candid.sane.voter i hi).preCommit v nh hs
    exact hcert qc hview hnode hq
  | commit =>
    obtain ⟨⟨qc, _, hview, hnode, hq⟩, _⟩ := (h.candid.sane.voter i hi).commit v nh hs
    exact hcert qc hview hnode hq

/-- A leader that waits has the NEW-VIEW of everyone who has left the view before. -/
theorem Becalmed.reports (hs : Becalmed K rs i) (h : Steady K rs) (hj : K.Honest j)
    (hlead : K.leader (v + 1) = i) (hview : v < (rs j).rs.view) :
    (((rs i).rs.viewData v).newViewMsgs.get? j).isSome := by
  have hleader := (h.candid.sane.holds j hj).leader (v + 1)
  obtain ⟨hown, hsent⟩ := (h.outspoken j hj).reported v hview
  rw [hleader, hlead] at hown hsent
  by_cases hme : i = j
  · subst j
    exact hown rfl
  · obtain ⟨justify, he⟩ := hsent hme
    exact hs.heard _ ⟨j, hj, fun he => hme he.symm, Or.inr he⟩

/-- A leader that waits has every vote that was cast. -/
theorem Becalmed.votes (hs : Becalmed K rs i) (h : Steady K rs) (hj : K.Honest j)
    (hlead : K.leader v = i) {nh : C.Hash} (hsigned : (rs j).Signed ⟨msgTypeOf p, v, nh⟩) :
    ((((rs i).rs.viewData v).votes p).get? j).isSome := by
  have hleader := (h.candid.sane.holds j hj).leader v
  obtain ⟨hown, hsent⟩ := (h.outspoken j hj).signed p v nh hsigned
  rw [hleader, hlead] at hown hsent
  by_cases hme : i = j
  · subst j
    exact hown rfl
  · obtain ⟨sig, he⟩ := hsent hme
    exact hs.heard _ ⟨j, hj, fun he => hme he.symm, Or.inr he⟩ p rfl

theorem full_map {β : Type} {m : EntryMap Nat β} (hfree : K.byz = ∅)
    (h : ∀ j, K.Honest j → (m.get? j).isSome) : K.n ≤ m.size := by
  have hle := EntryMap.length_le_size (m := m) List.nodup_range
    (fun j hj => h j ⟨List.mem_range.mp hj, by simp [hfree]⟩)
  simpa using hle

/-- A leader that waits, with the votes of everyone, has announced the certificate. -/
theorem Becalmed.certifies (hs : Becalmed K rs i) (hK : K.Faultless) (h : Steady K rs)
    (hi : K.Honest i) (hlead : K.leader (rs i).rs.view = i)
    (hrest : Uncertified (K.wiring i) p (rs i))
    (hsigned : ∀ j, K.Honest j → ∃ nh, (rs j).Signed ⟨msgTypeOf p, (rs i).rs.view, nh⟩) :
    ∃ qc, K.Announced rs p (rs i).rs.view qc := by
  have hholds := h.candid.sane.holds i hi
  have hpos : 0 < K.n := Nat.zero_lt_of_lt hi.1
  have hfull : K.n ≤ (((rs i).rs.viewData (rs i).rs.view).votes p).size := by
    apply full_map hK.free
    intro j hj
    obtain ⟨nh, hvote⟩ := hsigned j hj
    exact hs.votes h hj hlead hvote
  have hsame : ∀ e ∈ (((rs i).rs.viewData (rs i).rs.view).votes p).entries,
      e.2.1 = nodeHash (K.workload.course ((rs i).rs.view - 1)) := by
    rintro ⟨voter, nh, sig⟩ he
    have hvote := ((h.candid.endorsed i hi).views _).votes p voter nh sig
      (EntryMap.get?_eq_some.mpr he)
    have hhonest : K.Honest voter :=
      ⟨((hholds.views _).votes p voter nh sig (EntryMap.get?_eq_some.mpr he)).1, by simp [hK.free]⟩
    exact h.signed_on_course hK hhonest hvote
  rcases hrest with hother | hdone | hfew
  · rw [hholds.leader, hlead] at hother
    exact absurd rfl hother
  · obtain ⟨⟨qc, he⟩, _⟩ := (h.outspoken i hi).announced p _ hdone
    refine ⟨qc, ?_⟩
    rw [Cluster.Announced, hlead]
    exact ⟨_, he, rfl⟩
  · exfalso
    obtain ⟨vote, hvote⟩ : ∃ vote,
        vote ∈ (((rs i).rs.viewData (rs i).rs.view).votes p).entries := by
      apply List.exists_mem_of_length_pos
      exact hpos.trans_le hfull
    have hcount := hfew vote hvote
    rw [List.countP_eq_length.mpr (by
      intro e he
      rw [hsame e he, hsame vote hvote]
      simp), hholds.quorum] at hcount
    change K.n ≤ List.length _ at hfull
    omega

/-- Whoever waits has answered the certificates of its view. -/
theorem Becalmed.answers (hs : Becalmed K rs i) (hK : K.Faultless) (h : Steady K rs)
    (hi : K.Honest i) {next : Phase} (hnext : next ≠ .prepare) (hrest : Unanswered p next (rs i))
    (ha : K.Announced rs p (rs i).rs.view qc) :
    ∃ nh, (rs i).Signed ⟨msgTypeOf next, (rs i).rs.view, nh⟩ := by
  have hseen := hs.seen hK h hi ha
  rcases hrest with hnot | hvoted | hnone
  · rw [hseen] at hnot
    cases hnot
  · exact (h.outspoken i hi).cast next _ hnext hvoted
  · have hsome := h.matched i hi p _ hseen
    rw [hnone] at hsome
    cases hsome

/-- What the leader of a view would propose is a block of the workload. -/
theorem Becalmed.next_height (hs : Becalmed K rs i) (hinj : Function.Injective (nodeHash (C := C)))
    (hK : K.Faultless) (h : Steady K rs) (hi : K.Honest i)
    (hlast : (rs i).rs.view ≤ K.numBlocks) {newViews : List (Nat × Option (QC C))}
    (hread : newViews.Perm ((rs i).rs.viewData ((rs i).rs.view - 1)).newViewMsgs.entries) :
    ∃ height, newHeight (K.wiring i) (rs i).rs (highQc newViews) = .ok (some height) ∧
      height.toNat < K.numBlocks := by
  have hone := (h.course i hi).started
  have hsmall := numBlocks_small K
  cases hq : highQc newViews with
  | none =>
    have hzero : (0 : UInt64).toNat = 0 := rfl
    exact ⟨0, rfl, by omega⟩
  | some q =>
    obtain ⟨sender, hmem⟩ := highQc_mem hq
    have hget := EntryMap.get?_eq_some.mpr (hread.mem_iff.mp hmem)
    have hcert := ((h.candid.sane.holds i hi).views _).newViews sender q hget
    have hview := (h.course i hi).collected _ sender q hget
    obtain ⟨hfirst, _, hnode⟩ := certified_on_course hK.free h.candid
      (fun j hj => (h.course j hj).proposals) hi hcert
    have hfound := h.get hinj hi (hs.certified_known hK h hi hcert)
    have hnat := course_toNat K.workload (show q.view - 1 < 2 ^ 64 by omega)
    refine ⟨(K.workload.course (q.view - 1)).height + 1, ?_, ?_⟩
    · simp only [newHeight, hnode, hfound, addOneHeight]
      rw [if_pos (by omega)]
      rfl
    · rw [course_height, ofNat_succ, UInt64.toNat_ofNat_of_lt' (by change _ < 2 ^ 64; omega)]
      omega

/-- A leader that waits in a view everyone has entered has proposed its block. -/
theorem Becalmed.proposes (hs : Becalmed K rs i) (hinj : Function.Injective (nodeHash (C := C)))
    (hK : K.Faultless) (h : Steady K rs) (hi : K.Honest i) (hlead : K.leader (rs i).rs.view = i)
    (hall : ∀ j, K.Honest j → (rs j).rs.view = (rs i).rs.view)
    (hlast : (rs i).rs.view ≤ K.numBlocks) :
    ∃ leaf high sender, (rs i).HasSent (.proposal (rs i).rs.view leaf high sender) := by
  have hone := (h.course i hi).started
  have hholds := h.candid.sane.holds i hi
  have hfull : K.n ≤ ((rs i).rs.viewData ((rs i).rs.view - 1)).newViewMsgs.size := by
    apply full_map hK.free
    intro j hj
    apply hs.reports h hj
    · rw [Nat.sub_add_cancel hone]
      exact hlead
    · rw [hall j hj]
      omega
  obtain ⟨ord, hrest⟩ := hs.rests .leaderPrepare
  obtain ⟨height, hheight, hrange⟩ := hs.next_height hinj hK h hi hlast
    (ord.perm .newViewMsgs ((rs i).rs.viewData ((rs i).rs.view - 1)).newViewMsgs.entries)
  rcases hrest with hother | hdone | hfew | hnone | ⟨height', hsome, hpast⟩
  · rw [hholds.leader, hlead] at hother
    exact absurd rfl hother
  · obtain ⟨⟨leaf, high, he⟩, _⟩ := (h.outspoken i hi).proposed _ hdone
    exact ⟨leaf, high, _, _, he, rfl⟩
  · rw [hholds.quorum] at hfew
    omega
  · rw [hheight] at hnone
    cases hnone
  · rw [hheight] at hsome
    cases hsome
    change K.numBlocks ≤ _ at hpast
    omega

/-- Whoever waits in a view whose block was proposed has voted for it. -/
theorem Becalmed.prepares (hs : Becalmed K rs i) (hinj : Function.Injective (nodeHash (C := C)))
    (hgen : ∀ node : Node C, nodeHash node ≠ genesisHash C) (hK : K.Faultless) (h : Steady K rs)
    (hi : K.Honest i) (hlast : (rs i).rs.view ≤ K.numBlocks) {leaf : Node C}
    {high : Option (QC C)} {sender : Nat}
    (hsent : (rs (K.leader (rs i).rs.view)).HasSent
      (.proposal (rs i).rs.view leaf high sender)) :
    ∃ nh, (rs i).Signed ⟨.prepare, (rs i).rs.view, nh⟩ := by
  have hone := (h.course i hi).started
  obtain ⟨hstored, hknown⟩ := hs.proposed hK h hi hsent
  have hleft : ∀ k, k + 1 < (rs i).rs.view →
      Known (rs i).rs.tree K.workload.course k ∧ K.Decided (rs i) k :=
    fun k hk => hs.left hK h hi hk
  have hclear := hs.cleared hinj hgen h hi hlast
    (by
      intro k hk
      by_cases htop : k + 1 < (rs i).rs.view
      · exact (hleft k htop).1
      · rw [show k = (rs i).rs.view - 1 by omega]
        exact hknown)
    (fun k hk => (hleft k hk).2) ((rs i).rs.view - 1) (by omega)
  rcases hs.rests .replicaPrepare with hnone | hvoted | ⟨leaf', high', hprop, hopen⟩
  · rw [hnone] at hstored
    cases hstored
  · exact (h.course i hi).fit _ hvoted
  · rw [(h.stored hK hi hprop).leaf, hclear] at hopen
    cases hopen

/-- Nodes that all wait in one view have decided its block. -/
theorem Steady.decides (h : Steady K rs) (hinj : Function.Injective (nodeHash (C := C)))
    (hgen : ∀ node : Node C, nodeHash node ≠ genesisHash C) (hK : K.Faultless)
    (hstill : ∀ j, K.Honest j → Becalmed K rs j) (hi : K.Honest i)
    (hall : ∀ j, K.Honest j → (rs j).rs.view = v) (hlast : v ≤ K.numBlocks) :
    ∃ qc, K.Announced rs .commit v qc := by
  have hlead := leader_honest hK.free hi v
  obtain ⟨l, hl⟩ : ∃ l, K.leader v = l := ⟨_, rfl⟩
  rw [hl] at hlead
  have hv := hall l hlead
  have hrests := (hstill l hlead).rests
  have hleads : K.leader (rs l).rs.view = l := by rw [hv, hl]
  -- every phase ends in a certificate, once all have voted
  have hcertify : ∀ p, Uncertified (K.wiring l) p (rs l) →
      (∀ j, K.Honest j → ∃ nh, (rs j).Signed ⟨msgTypeOf p, v, nh⟩) →
      ∃ qc, K.Announced rs p v qc := by
    intro p hrest hsigned
    have hqc := (hstill l hlead).certifies hK h hlead hleads hrest (by rw [hv]; exact hsigned)
    rwa [hv] at hqc
  have hanswer : ∀ p next, next ≠ .prepare → (∀ j, K.Honest j → Unanswered p next (rs j)) →
      (∃ qc, K.Announced rs p v qc) →
      ∀ j, K.Honest j → ∃ nh, (rs j).Signed ⟨msgTypeOf next, v, nh⟩ := by
    intro p next hnext hrest ⟨qc, ha⟩ j hj
    have hsigned := (hstill j hj).answers hK h hj hnext (hrest j hj) (by rw [hall j hj]; exact ha)
    rwa [hall j hj] at hsigned
  have hprepares : ∀ j, K.Honest j → ∃ nh, (rs j).Signed ⟨.prepare, v, nh⟩ := by
    intro j hj
    obtain ⟨leaf, high, sender, hsent⟩ := (hstill l hlead).proposes hinj hK h hlead hleads
      (fun j hj => (hall j hj).trans hv.symm) (by omega)
    have hsigned := (hstill j hj).prepares hinj hgen hK h hj (by rw [hall j hj]; exact hlast)
      (by rw [hall j hj, hl, ← hv]; exact hsent)
    rwa [hall j hj] at hsigned
  apply hcertify .commit (hrests .leaderDecide)
  apply hanswer .preCommit .commit (by decide) (fun j hj => (hstill j hj).rests .replicaCommit)
  apply hcertify .preCommit (hrests .leaderCommit)
  apply hanswer .prepare .preCommit (by decide)
    (fun j hj => (hstill j hj).rests .replicaPreCommit)
  exact hcertify .prepare (hrests .leaderPreCommit) hprepares

/-- A calm run of a cluster without faults ends only when every node has executed
the whole workload. -/
theorem Cluster.Spent.completes (hspent : K.Spent log s)
    (hinj : Function.Injective (nodeHash (C := C)))
    (hgen : ∀ node : Node C, nodeHash node ≠ genesisHash C) (hK : K.Faultless)
    (hcalm : K.Calm log s) : ∀ i, K.Honest i → finished (K.wiring i) (s i).replica := by
  have h := hcalm.steady hinj hgen hK
  intro i hi
  by_contra hrunning
  have hstill := hspent.becalmed hinj hgen hK hcalm hi hrunning
  have hview := h.view_le hK.free hi
  by_cases hdone : ∃ j, K.Honest j ∧ finished (K.wiring j) (s j).replica
  · -- the decision of the last view has reached the node
    obtain ⟨j, hj, hfin⟩ := hdone
    apply hrunning
    apply hstill.finishes hinj hgen hK h hi
    by_contra hbehind
    have hone := (h.course i hi).started
    obtain ⟨qc, ha⟩ := h.last_announced hinj hK hj hfin hone (by omega)
    exact hstill.undecided hK h hi ha
  · have hall : ∀ j, K.Honest j → Becalmed K s.replicas j := fun j hj =>
      hspent.becalmed hinj hgen hK hcalm hj (fun hfin => hdone ⟨j, hj, hfin⟩)
    -- a node that were behind another would have heard of a decision
    have hle : ∀ a b, K.Honest a → K.Honest b →
        (s.replicas a).rs.view ≤ (s.replicas b).rs.view := by
      intro a b ha hb
      by_contra hlt
      obtain ⟨qc, hdec⟩ := (h.course a ha).left _ (h.course b hb).started (by omega)
      exact (hall b hb).undecided hK h hb hdec
    have hsame : ∀ j, K.Honest j → (s.replicas j).rs.view = (s.replicas i).rs.view :=
      fun j hj => le_antisymm (hle j i hj hi) (hle i j hi hj)
    by_cases hend : (s.replicas i).rs.view = K.numBlocks + 1
    · exact hrunning (hstill.finishes hinj hgen hK h hi hend)
    · obtain ⟨qc, ha⟩ := h.decides hinj hgen hK hall hi hsame (by omega)
      exact hstill.undecided hK h hi ha

end
end ZkStf
