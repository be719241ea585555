import ZkStf.Proofs.Playback

namespace ZkStf
open ZkStf.Basis
open ZkStf.Basis.Ballots
open Relation (ReflTransGen)
variable {C : Crypto}

/-- One parent link between hashes, whichever tree holds the child. -/
def ParentOf (child parent : C.Hash) : Prop :=
  ∃ node : Node C, nodeHash node = child ∧ node.parent = parent

/-- The first node is the second one or has it among its ancestors. -/
abbrev Extends : C.Hash → C.Hash → Prop := ReflTransGen ParentOf

theorem extendsLoop_sound {tree : EntryMap C.Hash (Node C)}
    (ht : ∀ h node, tree.get? h = some node → nodeHash node = h)
    (h : extendsLoop target tree fuel cur = true) : Extends cur target := by
  fun_induction extendsLoop target tree fuel cur with
  | case1 => exact .refl
  | case2 => cases h
  | case3 => cases h
  | case4 => cases h
  | case5 _ _ _ node _ hget ih => exact .head ⟨node, ht _ _ hget, rfl⟩ (ih h)

theorem extendsFrom_sound {tree : EntryMap C.Hash (Node C)}
    (ht : ∀ h node, tree.get? h = some node → nodeHash node = h)
    (h : extendsFrom node target tree = true) : Extends (nodeHash node) target := by
  unfold extendsFrom at h
  split at h
  · rename_i he
    exact he ▸ .refl
  · exact .head ⟨node, rfl, rfl⟩ (extendsLoop_sound ht h)

/-- What `safe_node` grants against a lock. -/
theorem safeNode_locked {leaf : Node C} {high : Option (QC C)} {locked : QC C}
    {tree : EntryMap C.Hash (Node C)} (h : safeNode leaf high (some locked) tree = true) :
    extendsFrom leaf locked.nodeHash tree = true ∨ ∃ q, high = some q ∧ locked.view < q.view := by
  unfold safeNode at h
  dsimp only at h
  split at h
  · exact Or.inl (by assumption)
  · split at h
    · rename_i q
      exact Or.inr ⟨q, rfl, of_decide_eq_true h⟩
    · cases h

/-- Everything the honest nodes hold is attested by the votes cast so far, and
their votes are backed by what they hold. -/
structure Sane (K : Cluster C) (rs : Nat → Replica C) : Prop where
  holds : ∀ i, K.Honest i →
    Holds K.n (K.Certifies (votesOf rs)) (K.Polled (votesOf rs)) (rs i)
  voter : ∀ i, K.Honest i → Voter (K.Certifies (votesOf rs)) (rs i)

section
variable {K : Cluster C} {rs : Nat → Replica C} {i : Nat} {r' : Replica C}

theorem votesOf_grow {arrives : Wire C → Prop}
    (hm : Move K.peerKeys arrives (K.wiring i) (rs i) r') (j : Nat) (d : VoteDigest C.Hash)
    (h : votesOf rs j d) : votesOf (Function.update rs i r') j d := by
  obtain ⟨verdict, hs⟩ := h
  exact ⟨verdict, (update_grows hm.effects_grow j).subset hs⟩

theorem Sane.start (K : Cluster C) :
    Sane K (fun i => startProtocol (K.wiring i) (bootReplica (K.wiring i) K.n)) :=
  ⟨fun _ _ => .start, fun _ _ => .start⟩

theorem Sane.move (h : Sane K rs) (hi : K.Honest i)
    (hm : Move K.peerKeys (K.Authentic rs i) (K.wiring i) (rs i) r') :
    Sane K (Function.update rs i r') := by
  have hgrow := votesOf_grow hm
  have hholds : ∀ j, K.Honest j → Holds K.n (K.Certifies (votesOf (Function.update rs i r')))
      (K.Polled (votesOf (Function.update rs i r'))) (rs j) := by
    intro j hj
    refine (h.holds j hj).mono (fun qc hq => hq.mono hgrow) ?_
    intro p v voter nh sig hp
    exact ⟨hp.1, fun hh => hgrow _ _ (hp.2 hh)⟩
  have hvoter : ∀ j, K.Honest j →
      Voter (K.Certifies (votesOf (Function.update rs i r'))) (rs j) := by
    intro j hj
    exact (h.voter j hj).mono (fun qc hq => hq.mono hgrow)
  have hown : ∀ d verdict, .sign d verdict ∈ r'.effects →
      votesOf (Function.update rs i r') i d := by
    intro d verdict hs
    exact ⟨verdict, by simpa using hs⟩
  have hfeeds := Cluster.authentic_feeds hi hgrow hown
  refine ⟨?_, ?_⟩
  · intro j hj
    by_cases hji : j = i
    · subst j
      simpa using (hholds i hi).move hfeeds hm
    · simpa [hji] using hholds j hj
  · intro j hj
    by_cases hji : j = i
    · subst j
      simpa using (hvoter i hi).move (hholds i hi) hm
    · simpa [hji] using hvoter j hj

/-- Induction over the runs of an authentic cluster, whose states are sane. -/
theorem authentic_invariant {net : Delivery C} {P : (Nat → Replica C) → Prop}
    (hnet : Growing net) (ha : ∀ rs i msg, net rs i msg → K.Authentic rs i msg)
    (h0 : P (fun i => startProtocol (K.wiring i) (bootReplica (K.wiring i) K.n)))
    (hs : ∀ rs i r', K.Honest i → Sane K rs → Sane K (Function.update rs i r') → P rs →
      Move K.peerKeys (net rs i) (K.wiring i) (rs i) r' → P (Function.update rs i r'))
    (hr : System.Reach K net s) : Sane K s.replicas ∧ P s.replicas := by
  refine system_invariant (P := fun rs => Sane K rs ∧ P rs) hnet ⟨Sane.start K, h0⟩ ?_ hr
  rintro rs i r' hi ⟨hsane, hp⟩ hm
  have hnext := hsane.move hi (hm.mono (ha rs i))
  exact ⟨hnext, hs rs i r' hi hsane hnext hp hm⟩

/-- The votes of the replicas as ballots. -/
def castBy (rs : Nat → Replica C) (b : Ballot Nat C.Hash) : Prop :=
  (rs b.voter).Signed ⟨msgTypeOf b.phase, b.view, b.block⟩

theorem certified_of_certifies {qc : QC C} {p : Phase} (ht : qc.msgType = msgTypeOf p)
    (h : K.Certifies (votesOf rs) qc) :
    Certified K.Honest K.Quorum (castBy rs) p qc.view qc.nodeHash := by
  unfold Cluster.Certifies QC.digest voteDigest at h
  rw [ht] at h
  exact h

theorem Sane.orderly (h : Sane K rs) : Orderly K.Honest K.Quorum (castBy rs) where
  single := by
    intro i p v b b' hi hb hb'
    exact (h.voter i hi).single _ v b b' hb hb'
  preCommit := by
    intro i v b hi hb
    obtain ⟨⟨qc, ht, rfl, rfl, hg⟩, _⟩ := (h.voter i hi).preCommit v b hb
    exact certified_of_certifies (p := .prepare) ht hg
  commit := by
    intro i v b hi hb
    obtain ⟨⟨qc, ht, rfl, rfl, hg⟩, _⟩ := (h.voter i hi).commit v b hb
    exact certified_of_certifies (p := .preCommit) ht hg

/-- Whatever a certificate is for was prepared in its view: honest nodes sign
digests of the three voting phases only. -/
theorem Sane.prepared (h : Sane K rs) (hi : Intersecting K.Honest K.Quorum) {qc : QC C}
    (hc : K.Certifies (votesOf rs) qc) :
    Certified K.Honest K.Quorum (castBy rs) .prepare qc.view qc.nodeHash := by
  obtain ⟨q, hq, hm⟩ := hc
  obtain ⟨j, hj, _, hh⟩ := hi q q hq hq
  obtain ⟨_, p, ht, _⟩ := (h.voter j hh).cast _ _ _ (hm j hj hh)
  exact h.orderly.prepared hi (certified_of_certifies ht ⟨q, hq, hm⟩)

/-- The ballots of the honest nodes in the order they were cast. -/
structure Logged (K : Cluster C) (rs : Nat → Replica C) (log : List (Ballot Nat C.Hash)) :
    Prop where
  cast : ∀ i p v b, K.Honest i → (⟨i, p, v, b⟩ ∈ log ↔ (rs i).Signed ⟨msgTypeOf p, v, b⟩)
  bound : ∀ before after i v' b', log = before ++ ⟨i, .prepare, v', b'⟩ :: after → K.Honest i →
    ∀ v b, ⟨i, .commit, v, b⟩ ∈ log → v < v' →
      ∃ w p, v ≤ w ∧ Certified K.Honest K.Quorum (· ∈ before) .prepare w p ∧ Extends b' p

variable {log : List (Ballot Nat C.Hash)}

theorem Logged.certified (hl : Logged K rs log) {p : Phase} {v : Nat} {b : C.Hash}
    (h : Certified K.Honest K.Quorum (castBy rs) p v b) :
    Certified K.Honest K.Quorum (· ∈ log) p v b :=
  h.mono (fun i hi hc => (hl.cast i p v b hi).mpr hc)

theorem Logged.disciplined (hl : Logged K rs log) (hs : Sane K rs) :
    Disciplined K.Honest K.Quorum Extends log :=
  { hs.orderly.congr (fun b hb => (hl.cast b.voter b.phase b.view b.block hb).symm) with
    bound := hl.bound }

/-- The voter of a proposal that passed `safe_node` knows a certified ancestor
from the view of its lock or a later one. -/
theorem Logged.safe_bound (hl : Logged K rs log) (hs : Sane K rs)
    (hq : Intersecting K.Honest K.Quorum) (hi : K.Honest i) {leaf : Node C}
    {high : Option (QC C)}
    (proposal : ((rs i).rs.viewData (rs i).rs.view).proposal = some (leaf, high))
    (safe : safeNode leaf high (rs i).rs.lockedQc (rs i).rs.tree = true)
    (hv : (rs i).Signed ⟨.commit, v, b⟩) :
    ∃ w p, v ≤ w ∧ Certified K.Honest K.Quorum (· ∈ log) .prepare w p ∧
      Extends (nodeHash leaf) p := by
  have hh := hs.holds i hi
  obtain ⟨_, locked, hlock, hle⟩ := (hs.voter i hi).commit v b hv
  rw [hlock] at safe
  rcases safeNode_locked safe with hext | ⟨q, rfl, hlt⟩
  · have hcert := hs.prepared hq (hh.lockedQc locked hlock).2
    exact ⟨locked.view, locked.nodeHash, hle, hl.certified hcert, extendsFrom_sound hh.tree hext⟩
  · obtain ⟨hparent, hgood⟩ := (hh.views _).proposal leaf _ proposal
    have hcert := hs.prepared hq (hgood q rfl)
    exact ⟨q.view, q.nodeHash, hle.trans hlt.le, hl.certified hcert, .single ⟨leaf, rfl, hparent⟩⟩

theorem Logged.quiet (hl : Logged K rs log) (hq : Quiet (rs i) r')
    (hg : (rs i).effects <+: r'.effects) : Logged K (Function.update rs i r') log := by
  refine { hl with cast := ?_ }
  intro j p v b hj
  rw [hl.cast j p v b hj]
  by_cases hji : j = i
  · subst j
    rw [Function.update_self]
    constructor
    · rintro ⟨verdict, h⟩
      exact ⟨verdict, hg.subset h⟩
    · rintro ⟨verdict, h⟩
      exact ⟨verdict, hq.signs _ _ h⟩
  · rw [Function.update_of_ne hji]

/-- A vote is the newest entry of the log. Earlier prepare ballots keep their
bound: a commit ballot cast now is of no earlier view than any of them. -/
theorem Logged.vote (hl : Logged K rs log) (hs : Sane K rs)
    (hq : Intersecting K.Honest K.Quorum) (hi : K.Honest i) {p : Phase} {nh : C.Hash}
    {held : ReplicaState C} (hc : Casts (rs i) p nh held) :
    Logged K (Function.update rs i (castVote (K.wiring i) p nh { rs i with rs := held }))
      (log ++ [⟨i, p, (rs i).rs.view, nh⟩]) := by
  have hview : held.view = (rs i).rs.view := by
    cases hc <;> rfl
  refine ⟨?_, ?_⟩
  · intro j q v b hj
    rw [List.mem_append, List.mem_singleton, hl.cast j q v b hj]
    by_cases hji : j = i
    · subst j
      rw [Function.update_self, castVote_signed]
      apply or_congr Iff.rfl
      rw [hview]
      constructor
      · rintro ⟨⟩
        rfl
      · intro he
        injection he with ht hv hn
        cases msgTypeOf_inj ht
        rw [hv, hn]
    · rw [Function.update_of_ne hji]
      constructor
      · rintro (h | h)
        · exact h
        · injection h with hvoter
          exact absurd hvoter hji
      · exact Or.inl
  · intro before after j v' b' hlog hj v b hmem hlt
    rcases List.eq_nil_or_concat after with rfl | ⟨after, last, rfl⟩
    · obtain ⟨rfl, hlast⟩ := List.append_inj' hlog rfl
      cases hlast
      rcases List.mem_append.mp hmem with hold | hnew
      · cases hc with
        | prepare leaf high proposal valid safe =>
          exact hl.safe_bound hs hq hi proposal safe ((hl.cast i .commit v b hi).mp hold)
      · cases List.mem_singleton.mp hnew
    · rw [List.concat_eq_append, ← List.cons_append, ← List.append_assoc] at hlog
      obtain ⟨rfl, hlast⟩ := List.append_inj' hlog rfl
      rcases List.mem_append.mp hmem with hold | hnew
      · exact hl.bound before after j v' b' rfl hj v b hold hlt
      · have hcast := (hl.cast j .prepare v' b' hj).mp (by simp)
        have hle := ((hs.voter j hj).cast _ _ _ hcast).1
        cases List.mem_singleton.mp hnew
        omega

theorem Logged.move (hl : Logged K rs log) (hs : Sane K rs)
    (hq : Intersecting K.Honest K.Quorum) (hi : K.Honest i) {arrives : Wire C → Prop}
    (hm : Move K.peerKeys arrives (K.wiring i) (rs i) r') :
    ∃ log', Logged K (Function.update rs i r') log' := by
  rcases hm.casts with hquiet | ⟨p, nh, held, hc, _, rfl⟩
  · exact ⟨log, hl.quiet hquiet hm.effects_grow⟩
  · exact ⟨_, hl.vote hs hq hi hc⟩

theorem Logged.start (K : Cluster C) :
    Logged K (fun i => startProtocol (K.wiring i) (bootReplica (K.wiring i) K.n)) [] := by
  refine ⟨?_, by simp⟩
  intro i p v b hi
  constructor
  · simp
  · intro hs
    exact absurd hs (start_unsigned _ _ _)

/-- Of two committed nodes, one is the other or descends from it. -/
theorem Logged.comparable (hl : Logged K rs log) (hs : Sane K rs) (hf : K.byz.card ≤ K.faults)
    (hi : K.Honest i) (hj : K.Honest j) {a b : C.Hash}
    (ha : ((rs i).rs.decidedNodes.get? a).isSome)
    (hb : ((rs j).rs.decidedNodes.get? b).isSome) : Extends a b ∨ Extends b a := by
  have hq := Cluster.intersecting hi hf
  obtain ⟨qa, hta, rfl, hca⟩ := (hs.holds i hi).decided a ha
  obtain ⟨qb, htb, rfl, hcb⟩ := (hs.holds j hj).decided b hb
  exact (hl.disciplined hs).agreement hq (fun _ => .refl) (fun _ _ _ => .trans)
    (hl.certified (certified_of_certifies (p := .commit) htb hcb))
    (hl.certified (certified_of_certifies (p := .commit) hta hca))

/-- Every run of an authentic cluster leaves a log of disciplined voting. -/
theorem authentic_logged (hf : K.byz.card ≤ K.faults) (hi : K.Honest i)
    (hr : System.Reach K K.Authentic s) :
    Sane K s.replicas ∧ ∃ log, Logged K s.replicas log := by
  refine authentic_invariant (P := fun rs => ∃ log, Logged K rs log) K.authentic_growing
    (fun _ _ _ h => h) ⟨[], Logged.start K⟩ ?_ hr
  rintro rs j r' hj hsane _ ⟨log, hl⟩ hm
  exact hl.move hsane (Cluster.intersecting hi hf) hj hm

end

/-- Agreement. Of two nodes decided anywhere, one is the other or descends from
it. The byzantine nodes send what they like, to whom they like; the network
delivers what it likes, in any order and any number of times. -/
theorem decided_nodes_agree {K : Cluster C} (hf : K.byz.card ≤ K.faults)
    {s : System C} (hr : System.Reach K K.Authentic s) {i j : Nat} (hi : K.Honest i)
    (hj : K.Honest j) {a b : C.Hash} (ha : ((s i).replica.rs.decidedNodes.get? a).isSome)
    (hb : ((s j).replica.rs.decidedNodes.get? b).isSome) : Extends a b ∨ Extends b a := by
  obtain ⟨hs, log, hl⟩ := authentic_logged hf hi hr
  exact hl.comparable hs hf hi hj ha hb

theorem quartet_agrees : ∃ s : System Quartet.crypto,
    System.Reach Quartet.cluster Quartet.cluster.Authentic s ∧
      ((s 0).replica.rs.decidedNodes.get? (nodeHash Quartet.first)).isSome ∧
      ((s 1).replica.rs.decidedNodes.get? (nodeHash Quartet.first)).isSome ∧
      (Extends (nodeHash Quartet.first) (nodeHash Quartet.first) ∨
        Extends (nodeHash Quartet.first) (nodeHash Quartet.first)) := by
  have hplay : (System.play Quartet.cluster Quartet.cluster.Authentic Quartet.schedule
      (System.start Quartet.cluster)).any (fun s =>
        ((s 0).replica.rs.decidedNodes.get? (nodeHash Quartet.first)).isSome &&
          ((s 1).replica.rs.decidedNodes.get? (nodeHash Quartet.first)).isSome) = true := by
    decide +kernel
  obtain ⟨s, hr, hc⟩ := play_exists hplay
  obtain ⟨h0, h1⟩ := Bool.and_eq_true_iff.mp hc
  exact ⟨s, hr, h0, h1, decided_nodes_agree (by decide) hr (i := 0) (j := 1) (by decide)
    (by decide) h0 h1⟩

end ZkStf
