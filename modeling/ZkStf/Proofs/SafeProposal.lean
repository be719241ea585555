import ZkStf.Proofs.NewViews

namespace ZkStf
open ZkStf.Basis
open ZkStf.Basis.Ballots
open Relation (ReflTransGen)
variable {C : Crypto}

def Wire.sender : Wire C → Option Nat
  | .proposal _ _ _ sender => some sender
  | .phaseQc _ _ _ sender => some sender
  | .newView _ _ sender => some sender
  | _ => none

/-- The network of a cluster in which sender fields are true as well. -/
def Cluster.Truthful (K : Cluster C) : Delivery C := fun rs i msg =>
  K.Authentic rs i msg ∧ ∀ sender ∈ msg.sender,
    sender < K.n ∧ (K.Honest sender → (rs sender).HasSent msg)

theorem Cluster.truthful_growing (K : Cluster C) : Growing K.Truthful := by
  intro rs rs' hg i msg ht
  refine ⟨K.authentic_growing rs rs' hg i msg ht.1, ?_⟩
  intro sender hs
  obtain ⟨hlt, hsent⟩ := ht.2 sender hs
  exact ⟨hlt, fun hh => (hsent hh).mono (hg sender)⟩

def Cluster.leader (K : Cluster C) (view : Nat) : Nat := if view = 0 then 0 else (view - 1) % K.n

/-- The certificate is no older than any PRE-COMMIT vote the node has cast up
to view `u`, and the node will not vote in these views again. -/
structure Reported (r : Replica C) (u : Nat) (justify : Option (QC C)) : Prop where
  past : u < r.rs.view
  covers : ∀ v nh, r.Signed ⟨.preCommit, v, nh⟩ → v ≤ u → ∃ q, justify = some q ∧ v ≤ q.view

section
variable {keys : Nat → Option C.Key} {arrives : Wire C → Prop} {w : Wiring C}
  {r r' : Replica C} {u : Nat} {justify : Option (QC C)}

/-- The certificate held on leaving a view covers every vote so far. -/
theorem Leaves.reported {good : QC C → Prop} (h : Leaves r r') (hv : Voter good r) :
    Reported r' r.rs.view r.rs.prepareQc := by
  refine ⟨h.view, ?_⟩
  intro v nh hs _
  exact (hv.preCommit v nh (h.signs _ hs)).2

theorem Reported.move (h : Reported r u justify) (hm : Move keys arrives w r r') :
    Reported r' u justify := by
  have hpast := h.past
  rcases hm.casts with hq | ⟨p, nh, held, hc, _, rfl⟩
  · refine ⟨hpast.trans_le hq.view, ?_⟩
    rintro v nh ⟨verdict, hs⟩ hle
    exact h.covers v nh ⟨verdict, hq.signs _ _ hs⟩ hle
  · have hview : held.view = r.rs.view := by
      cases hc <;> rfl
    refine ⟨?_, ?_⟩
    · rw [castVote_eq]
      simpa [hview] using hpast
    · intro v nh' hs hle
      rcases castVote_signed.mp hs with hs | hd
      · exact h.covers v nh' hs hle
      · injection hd with _ hv
        rw [hview] at hv
        omega

theorem maxByView_max {qcs : List (QC C)} {q : QC C} (h : q ∈ qcs) :
    ∃ high, maxByView qcs = some high ∧ q.view ≤ high.view := by
  induction qcs using List.reverseRecOn with
  | nil => cases h
  | append_singleton qcs p ih =>
    rcases List.mem_append.mp h with hin | hin
    · obtain ⟨high, hhigh, hle⟩ := ih hin
      rcases maxByView_concat qcs p with ⟨hp, hmax⟩ | ⟨b, hb, _, hsame⟩
      · exact ⟨p, hp, hle.trans (hmax high hhigh)⟩
      · cases hb.symm.trans hhigh
        exact ⟨high, hsame, hle⟩
    · cases List.mem_singleton.mp hin
      rcases maxByView_concat qcs q with ⟨hq, _⟩ | ⟨b, _, hlt, hsame⟩
      · exact ⟨q, hq, Nat.le_refl _⟩
      · exact ⟨b, hsame, Nat.le_of_lt hlt⟩

/-- Among the certificates collected, the leader picks one of the greatest view. -/
theorem highQc_max {newViews : List (Nat × Option (QC C))} {sender : Nat} {q : QC C}
    (h : (sender, some q) ∈ newViews) :
    ∃ high, highQc newViews = some high ∧ q.view ≤ high.view :=
  maxByView_max (List.mem_filterMap.mpr ⟨_, h, rfl⟩)

/-- A report stays one when the leader replaces it by its choice among all. -/
theorem Reported.high {newViews : List (Nat × Option (QC C))} {sender : Nat}
    (h : Reported r u justify) (hm : (sender, justify) ∈ newViews) :
    Reported r u (highQc newViews) := by
  refine ⟨h.past, ?_⟩
  intro v nh hs hle
  obtain ⟨q, rfl, hq⟩ := h.covers v nh hs hle
  obtain ⟨high, hhigh, hmax⟩ := highQc_max hm
  exact ⟨high, hhigh, hq.trans hmax⟩

end

namespace Cluster
variable (K : Cluster C) (rs : Nat → Replica C)

def Told (sender u : Nat) (justify : Option (QC C)) : Prop :=
  sender < K.n ∧ (K.Honest sender → Reported (rs sender) u justify)

/-- An honest leader of the view sent the proposal. -/
def Proposed (v : Nat) (leaf : Node C) (high : Option (QC C)) : Prop :=
  K.Honest (K.leader v) → (rs (K.leader v)).HasSent (.proposal v leaf high (K.leader v))

/-- A proposal rests on the reports of a quorum. -/
def Grounded (v : Nat) (leaf : Node C) (high : Option (QC C)) : Prop :=
  leaf.parent = expectedParent high ∧
    ∃ q, K.Quorum q ∧ ∀ i ∈ q, K.Honest i → Reported (rs i) (v - 1) high

end Cluster

/-- What a node has heard of the views and their proposals, and told of them. -/
structure Minutes (K : Cluster C) (rs : Nat → Replica C) (r : Replica C) : Prop where
  reports : ∀ u justify sender, r.HasSent (.newView u justify sender) → Reported r u justify
  collected : ∀ u sender justify,
    (r.rs.viewData u).newViewMsgs.get? sender = some justify → K.Told rs sender u justify
  grounded : ∀ v leaf high sender, r.HasSent (.proposal v leaf high sender) →
    (r.rs.viewData v).broadcastProposal = true ∧ sender = K.leader v ∧ K.Grounded rs v leaf high
  single : ∀ v leaf leaf' high high' sender sender', r.HasSent (.proposal v leaf high sender) →
    r.HasSent (.proposal v leaf' high' sender') → leaf = leaf'
  stored : ∀ v leaf high, (r.rs.viewData v).proposal = some (leaf, high) →
    K.Proposed rs v leaf high
  prepared : ∀ v nh, r.Signed ⟨.prepare, v, nh⟩ →
    ∃ leaf high, nodeHash leaf = nh ∧ K.Proposed rs v leaf high

section
variable {K : Cluster C} {rs rs' : Nat → Replica C} {i : Nat} {r r' : Replica C}

/-- Nothing that was reported or sent is lost. -/
def Later (rs rs' : Nat → Replica C) : Prop :=
  ∀ i, (∀ u justify, Reported (rs i) u justify → Reported (rs' i) u justify) ∧
    ∀ msg, (rs i).HasSent msg → (rs' i).HasSent msg

theorem Move.later {arrives : Wire C → Prop}
    (hm : Move K.peerKeys arrives (K.wiring i) (rs i) r') : Later rs (Function.update rs i r') := by
  intro j
  by_cases hji : j = i
  · subst j
    rw [Function.update_self]
    exact ⟨fun _ _ h => h.move hm, fun _ h => h.mono hm.effects_grow⟩
  · rw [Function.update_of_ne hji]
    exact ⟨fun _ _ h => h, fun _ h => h⟩

theorem Later.told (hl : Later rs rs') (h : K.Told rs sender u justify) :
    K.Told rs' sender u justify :=
  ⟨h.1, fun hh => (hl sender).1 u justify (h.2 hh)⟩

theorem Later.proposed (hl : Later rs rs') (h : K.Proposed rs v leaf high) :
    K.Proposed rs' v leaf high :=
  fun hh => (hl _).2 _ (h hh)

theorem Later.grounded (hl : Later rs rs') (h : K.Grounded rs v leaf high) :
    K.Grounded rs' v leaf high := by
  obtain ⟨hp, q, hq, hr⟩ := h
  exact ⟨hp, q, hq, fun x hx hh => (hl x).1 _ _ (hr x hx hh)⟩

theorem Minutes.mono (h : Minutes K rs r) (hl : Later rs rs') : Minutes K rs' r := by
  refine ⟨h.reports, ?_, ?_, h.single, ?_, ?_⟩
  · intro u sender justify hget
    exact hl.told (h.collected u sender justify hget)
  · intro v leaf high sender hs
    obtain ⟨hmark, hlead, hg⟩ := h.grounded v leaf high sender hs
    exact ⟨hmark, hlead, hl.grounded hg⟩
  · intro v leaf high hp
    exact hl.proposed (h.stored v leaf high hp)
  · intro v nh hs
    obtain ⟨leaf, high, hn, hp⟩ := h.prepared v nh hs
    exact ⟨leaf, high, hn, hl.proposed hp⟩

/-- What the network tells a node is true of the sender. -/
structure Heard (K : Cluster C) (rs : Nat → Replica C) (arrives : Wire C → Prop) : Prop where
  newView : ∀ u justify sender, arrives (.newView u justify sender) → K.Told rs sender u justify
  proposal : ∀ v leaf high, arrives (.proposal v leaf high (K.leader v)) →
    K.Proposed rs v leaf high

theorem Holds.leader {good : QC C → Prop} {vote : Phase → Nat → Nat → C.Hash → C.Sig → Prop}
    (h : Holds K.n good vote r) (v : Nat) : r.rs.leaderFor v = K.leader v := by
  unfold ReplicaState.leaderFor Cluster.leader
  rw [h.size]

/-- A leader proposes on the reports of everyone whose NEW-VIEW it read. -/
theorem Minutes.grounds {good : QC C → Prop}
    {vote : Phase → Nat → Nat → C.Hash → C.Sig → Prop} {newViews : List (Nat × Option (QC C))}
    (h : Minutes K rs r) (hh : Holds K.n good vote r) {leaf : Node C} (hv : v = r.rs.view)
    (read : newViews.Perm (r.rs.viewData (r.rs.view - 1)).newViewMsgs.entries)
    (enough : r.rs.quorum ≤ newViews.length)
    (parent : leaf.parent = expectedParent (highQc newViews)) :
    K.Grounded rs v leaf (highQc newViews) := by
  have htold : ∀ sender justify, (sender, justify) ∈ newViews →
      K.Told rs sender (v - 1) justify := by
    intro sender justify hmem
    rw [hv]
    exact h.collected _ sender justify (EntryMap.get?_eq_some.mpr (read.mem_iff.mp hmem))
  have hnodup : (newViews.map Prod.fst).Nodup :=
    (read.map Prod.fst).nodup_iff.mpr (EntryMap.nodup _)
  refine ⟨parent, (newViews.map Prod.fst).toFinset, ⟨?_, ?_⟩, ?_⟩
  · intro x hx
    obtain ⟨⟨_, justify⟩, hmem, rfl⟩ := List.mem_map.mp (List.mem_toFinset.mp hx)
    exact Finset.mem_range.mpr (htold _ justify hmem).1
  · rw [List.toFinset_card_of_nodup hnodup, List.length_map]
    exact hh.quorum ▸ enough
  · intro x hx hhonest
    obtain ⟨⟨_, justify⟩, hmem, rfl⟩ := List.mem_map.mp (List.mem_toFinset.mp hx)
    exact ((htold _ justify hmem).2 hhonest).high hmem

theorem Minutes.move {good : QC C → Prop} {vote : Phase → Nat → Nat → C.Hash → C.Sig → Prop}
    {arrives : Wire C → Prop} (h : Minutes K rs r) (hh : Holds K.n good vote r)
    (hv : Voter good r) (hi : K.Honest i) (hr : rs i = r') (heard : Heard K rs arrives)
    (hm : Move K.peerKeys arrives (K.wiring i) r r') : Minutes K rs r' := by
  have hown : ∀ v leaf high, K.leader v = i → r'.HasSent (.proposal v leaf high i) →
      K.Proposed rs v leaf high := by
    intro v leaf high hl hs _
    rw [hl, hr]
    exact hs
  refine ⟨?_, ?_, ?_, ?_, ?_, ?_⟩
  · intro u justify sender hs
    rcases hm.sent_cases hs with hs | hs
    · exact (h.reports u justify sender hs).move hm
    · cases hs with
      | newView leaves => exact leaves.reported hv
  · intro u sender justify hget
    rcases hm.collected_cases hget with hget | ha | ⟨rfl, rfl, rfl, leaves⟩
    · exact h.collected u sender justify hget
    · exact heard.newView u justify sender ha
    · exact ⟨hi.1, fun _ => hr ▸ leaves.reported hv⟩
  · intro v leaf high sender hs
    rcases hm.sent_cases hs with hs | hs
    · exact (h.grounded v leaf high sender hs).imp_left hm.broadcast_mono
    · cases hs with
      | proposal newViews leaf leader once read enough parent sent =>
        exact ⟨sent ▸ sendProposal_marks _ _, leader.symm.trans (hh.leader _),
          h.grounds hh rfl read enough parent⟩
  · intro v a b high high' sender sender' ha hb
    rcases hm.sent_cases ha with ha | ha <;> rcases hm.sent_cases hb with hb | hb
    · exact h.single v a b high high' sender sender' ha hb
    · cases hb with
      | proposal newViews leaf leader once =>
        have hmark := (h.grounded _ a high sender ha).1
        simp [once] at hmark
    · cases ha with
      | proposal newViews leaf leader once =>
        have hmark := (h.grounded _ b high' sender' hb).1
        simp [once] at hmark
    · cases ha with
      | proposal newViews leaf leader once read enough parent sent =>
        cases hb with
        | proposal newViews' leaf' leader' once' read' enough' parent' sent' =>
          exact sendProposal_inj (sent.symm.trans sent')
  · intro v leaf high hp
    rcases hm.stored_cases hp with hp | ha | ⟨hl, hs⟩
    · exact h.stored v leaf high hp
    · rw [hh.leader] at ha
      exact heard.proposal v leaf high ha
    · rw [hh.leader] at hl
      exact hown v leaf high hl hs
  · intro v nh hs
    rcases hm.casts with hq | ⟨p, nh', held, hc, _, rfl⟩
    · obtain ⟨verdict, hs⟩ := hs
      exact h.prepared v nh ⟨verdict, hq.signs _ _ hs⟩
    · rcases castVote_signed.mp hs with hs | hd
      · exact h.prepared v nh hs
      · cases hc with
        | prepare leaf high proposal valid safe =>
          cases hd
          exact ⟨leaf, high, rfl, h.stored _ leaf high proposal⟩
        | preCommit => cases hd
        | commit => cases hd

theorem start_minutes (hi : K.Honest i)
    (hr : rs i = startProtocol (K.wiring i) (bootReplica (K.wiring i) K.n)) :
    Minutes K rs (rs i) := by
  have hunsigned : ∀ d, ¬ (rs i).Signed d := by
    rw [hr]
    exact start_unsigned _ _
  have hreport : ∀ justify, Reported (rs i) 0 justify := by
    intro justify
    refine ⟨?_, fun v nh hs => absurd hs (hunsigned _)⟩
    rw [hr, startProtocol, enterNewView_eq]
    exact Nat.one_pos
  have hsent : ∀ msg, (rs i).HasSent msg → msg = .newView 0 none i := by
    intro msg hs
    rw [hr] at hs
    rcases enter_sent hs with ⟨e, he, _⟩ | hs
    · cases he
    · exact hs
  refine ⟨?_, ?_, ?_, ?_, ?_, fun v nh hs => absurd hs (hunsigned _)⟩
  · intro u justify sender hs
    cases hsent _ hs
    exact hreport none
  · intro u sender justify hget
    rw [hr] at hget
    rcases enter_collected hget with hget | ⟨rfl, rfl, rfl⟩
    · cases hget
    · exact ⟨hi.1, fun _ => hreport _⟩
  · intro v leaf high sender hs
    cases hsent _ hs
  · intro v leaf leaf' high high' sender sender' hs
    cases hsent _ hs
  · intro v leaf high hp
    rw [hr, startProtocol, enter_field ViewData.proposal v (fun _ _ => rfl)] at hp
    cases hp

theorem safeNode_of_lock {node : Node C} {justify locked : Option (QC C)}
    {tree : EntryMap C.Hash (Node C)}
    (h : ∀ lk, locked = some lk → nodeHash node = lk.nodeHash ∨ node.parent = lk.nodeHash ∨
      ∃ q, justify = some q ∧ lk.view < q.view) : safeNode node justify locked tree = true := by
  cases locked with
  | none => rfl
  | some lk =>
    rcases h lk rfl with hn | hp | ⟨q, rfl, hq⟩
    · simp [safeNode, extendsFrom, hn]
    · have hself : extendsLoop lk.nodeHash tree 100000 lk.nodeHash = true := by
        unfold extendsLoop
        exact if_pos rfl
      simp [safeNode, extendsFrom, hp, hself]
    · simp [safeNode, hq]

/-- The honest nodes of a truthful cluster keep true minutes. -/
theorem truthful_minutes (hr : System.Reach K K.Truthful s) :
    Sane K s.replicas ∧ ∀ i, K.Honest i → Minutes K s.replicas (s.replicas i) := by
  refine authentic_invariant (P := fun rs => ∀ i, K.Honest i → Minutes K rs (rs i))
    K.truthful_growing (fun _ _ _ h => h.1) (fun i hi => start_minutes hi rfl) ?_ hr
  intro rs i r' hi hsane _ h hm j hj
  have hlater := hm.later
  by_cases hji : j = i
  · subst j
    have hheard : Heard K (Function.update rs i r') (K.Truthful rs i) := by
      refine ⟨?_, ?_⟩
      · intro u justify sender ha
        obtain ⟨hlt, hsent⟩ := ha.2 sender rfl
        exact hlater.told ⟨hlt, fun hh => (h sender hh).reports u justify sender (hsent hh)⟩
      · intro v leaf high ha
        exact hlater.proposed (ha.2 _ rfl).2
    rw [Function.update_self]
    exact ((h i hi).mono hlater).move (hsane.holds i hi) (hsane.voter i hi) hi
      (Function.update_self ..) hheard hm
  · rw [Function.update_of_ne hji]
    exact (h j hj).mono hlater

/-- What the lock of an honest node holds was pre-committed, as seen from any
later state of the run. -/
theorem Sane.locked {t s : System C} (ht : Sane K t.replicas)
    (hg : ∀ i, (t i).replica.effects <+: (s i).replica.effects) (hj : K.Honest j) {lk : QC C}
    (hlk : (t j).replica.rs.lockedQc = some lk) :
    Certified K.Honest K.Quorum (castBy s.replicas) .preCommit lk.view lk.nodeHash := by
  obtain ⟨htype, hcert⟩ := (ht.holds j hj).lockedQc lk hlk
  apply certified_of_certifies (p := .preCommit) htype
  apply hcert.mono
  rintro i d ⟨verdict, hs⟩
  exact ⟨verdict, (hg i).subset hs⟩

/-- The reports behind a proposal reach every older lock. -/
theorem Cluster.Grounded.covers (h : K.Grounded rs v node justify)
    (hq : Intersecting K.Honest K.Quorum)
    (hc : Certified K.Honest K.Quorum (castBy rs) .preCommit u nh) (hu : u < v) :
    ∃ q, justify = some q ∧ u ≤ q.view := by
  obtain ⟨_, a, ha, hr⟩ := h
  obtain ⟨b, hb, hm⟩ := hc
  obtain ⟨x, hxa, hxb, hx⟩ := hq a b ha hb
  exact (hr x hxa hx).covers u nh (hm x hxb hx) (by omega)

end

/-- An honest leader's proposal is safe to vote for at every honest node that is
in its view, at any moment `t` of the run, before or after the broadcast. -/
theorem honest_proposal_safe {K : Cluster C} (hf : K.byz.card ≤ K.faults) {t s : System C}
    (ht : System.Reach K K.Truthful t) (hts : ReflTransGen (System.Step K K.Truthful) t s)
    {leader j : Nat} (hl : K.Honest leader) (hj : K.Honest j) {v : Nat} {node : Node C}
    {justify : Option (QC C)}
    (hp : .broadcast (.proposal v node justify leader) ∈ (s leader).replica.effects) :
    ((t j).replica.rs.view = v →
      safeNode node justify (t j).replica.rs.lockedQc (t j).replica.rs.tree = true) ∧
    ∀ lk, (t j).replica.rs.lockedQc = some lk → lk.view < v →
      ∃ q, justify = some q ∧ lk.view ≤ q.view := by
  have hq := Cluster.intersecting hl hf
  have hst := (truthful_minutes ht).1
  obtain ⟨hs, hmin⟩ := truthful_minutes (ht.steps hts)
  have hlocked := fun lk (hlk : (t j).replica.rs.lockedQc = some lk) =>
    hst.locked (steps_grow hts) hj hlk
  have hsent : (s.replicas leader).HasSent (.proposal v node justify leader) := ⟨_, hp, rfl⟩
  obtain ⟨_, hlead, hg⟩ := (hmin leader hl).grounded v node justify leader hsent
  refine ⟨?_, fun lk hlk hlt => hg.covers hq (hlocked lk hlk) hlt⟩
  intro hview
  apply safeNode_of_lock
  intro lk hlk
  have hprep := hs.orderly.prepared hq (hlocked lk hlk)
  have hle : lk.view ≤ v := hview ▸ (hst.voter j hj).lockedQc lk hlk
  rcases Nat.eq_or_lt_of_le hle with heq | hlt
  · left
    obtain ⟨x, hx, hvote⟩ := hprep.voter hq
    obtain ⟨leaf, high, hn, hprop⟩ := (hmin x hx).prepared _ _ hvote
    rw [heq] at hprop
    have hleaf := hprop (hlead ▸ hl)
    rw [← hlead] at hleaf
    rw [(hmin leader hl).single v node leaf _ _ _ _ hsent hleaf]
    exact hn
  · right
    obtain ⟨q, rfl, hle⟩ := hg.covers hq (hlocked lk hlk) hlt
    rcases Nat.eq_or_lt_of_le hle with heq | hlt
    · left
      have hqc := hs.prepared hq ((hs.holds leader hl).sent _ hp _ rfl q (by simp [Wire.certs]))
      rw [← heq] at hqc
      rw [hg.1]
      exact hs.orderly.unique hq hqc hprep
    · exact Or.inr ⟨q, rfl, hlt⟩

instance [DecidableEq C.Sig] (r : Replica C) (msg : Wire C) : Decidable (r.HasSent msg) :=
  inferInstanceAs (Decidable (∃ e ∈ r.effects, _))

instance [DecidableEq C.Sig] (K : Cluster C) (rs : Nat → Replica C) (i : Nat) (msg : Wire C) :
    Decidable (K.Truthful rs i msg) :=
  inferInstanceAs (Decidable (_ ∧ ∀ sender ∈ msg.sender, _))

/-- Node 1 is locked on the proposal of the view it is in. -/
theorem quartet_proposal_safe : ∃ s : System Quartet.crypto,
    System.Reach Quartet.cluster Quartet.cluster.Truthful s ∧
      .broadcast (.proposal 1 Quartet.first none 0) ∈ (s 0).replica.effects ∧
      (s 1).replica.rs.view = 1 ∧
      (s 1).replica.rs.lockedQc = some (Quartet.cert .preCommit) ∧
      safeNode Quartet.first none (s 1).replica.rs.lockedQc (s 1).replica.rs.tree = true := by
  have hplay : (System.play Quartet.cluster Quartet.cluster.Truthful
      (Quartet.schedule.take 13) (System.start Quartet.cluster)).any (fun s => decide
        (.broadcast (.proposal 1 Quartet.first none 0) ∈ (s 0).replica.effects ∧
          (s 1).replica.rs.view = 1 ∧
          (s 1).replica.rs.lockedQc = some (Quartet.cert .preCommit))) = true := by
    decide +kernel
  obtain ⟨s, hr, hc⟩ := play_exists hplay
  obtain ⟨hsent, hview, hlock⟩ := of_decide_eq_true hc
  have h0 : Quartet.cluster.Honest 0 := by decide
  have h1 : Quartet.cluster.Honest 1 := by decide
  exact ⟨s, hr, hsent, hview, hlock,
    (honest_proposal_safe (by decide) hr .refl h0 h1 hsent).1 hview⟩

end ZkStf
