import ZkStf.Proofs.Voting

namespace ZkStf
open ZkStf.Basis
open ZkStf.Basis.Ballots
open Relation (ReflTransGen)
variable {C : Crypto}

/-- The votes cast so far, by voter. -/
abbrev Votes (C : Crypto) := Nat → VoteDigest C.Hash → Prop

def votesOf (rs : Nat → Replica C) : Votes C := fun i d => (rs i).Signed d

def QC.digest (qc : QC C) : VoteDigest C.Hash := voteDigest qc.msgType qc.view qc.nodeHash

/-- The signatures in a message, each with its voter and what it should sign. -/
def Wire.signatures : Wire C → List (VoteDigest C.Hash × Nat × C.Sig)
  | .vote ty view nh voter sig => [(voteDigest ty view nh, voter, sig)]
  | msg => msg.certs.flatMap (fun qc => qc.sigs.map (fun entry => (qc.digest, entry.1, entry.2)))

def Wire.voter : Wire C → Option Nat
  | .vote _ _ _ voter _ => some voter
  | _ => none

namespace Cluster
variable (K : Cluster C)

/-- Signatures cannot be forged: one in transit that verifies under an honest
node's key was made by that node before. -/
def Unforged : Delivery C := fun rs _ msg =>
  ∀ s ∈ msg.signatures, K.Honest s.2.1 → C.verify (K.key s.2.1) s.1 s.2.2 = true →
    (rs s.2.1).Signed s.1

/-- The network of an authenticated cluster. No vote that names its own receiver
comes from outside. -/
def Authentic : Delivery C := fun rs i msg => K.Unforged rs i msg ∧ msg.voter ≠ some i

def Quorum (q : Finset Nat) : Prop := q ⊆ Finset.range K.n ∧ K.n - K.faults ≤ q.card

/-- A quorum signed the digest, as far as its honest members go. -/
def Attested (votes : Votes C) (d : VoteDigest C.Hash) : Prop :=
  ∃ q, K.Quorum q ∧ ∀ i ∈ q, K.Honest i → votes i d

def Certifies (votes : Votes C) (qc : QC C) : Prop := K.Attested votes qc.digest

def Polled (votes : Votes C) (p : Phase) (v voter : Nat) (nh : C.Hash) (_ : C.Sig) : Prop :=
  voter < K.n ∧ (K.Honest voter → votes voter (voteDigest (msgTypeOf p) v nh))

variable {K}

theorem Attested.mono {votes votes' : Votes C} (h : K.Attested votes d)
    (hv : ∀ i d, votes i d → votes' i d) : K.Attested votes' d := by
  obtain ⟨q, hq, hm⟩ := h
  exact ⟨q, hq, fun i hi hh => hv i d (hm i hi hh)⟩

theorem intersecting (hi : K.Honest i) (hf : K.byz.card ≤ K.faults) :
    Intersecting K.Honest K.Quorum := by
  rintro a b ⟨hau, ha⟩ ⟨hbu, hb⟩
  have hsize : (Finset.range K.n).card + K.byz.card < 2 * (K.n - K.faults) := by
    have hn := hi.1
    rw [Finset.card_range]
    unfold faults at hf ⊢
    omega
  obtain ⟨j, hja, hjb, hj⟩ := meet_outside hau hbu ha hb hsize
  exact ⟨j, hja, hjb, Finset.mem_range.mp (hau hja), hj⟩

theorem peerKeys_lt {i : Nat} {pk : C.Key} (h : K.peerKeys i = some pk) :
    i < K.n ∧ pk = K.key i := by
  unfold peerKeys at h
  split at h
  · cases h
    exact ⟨by assumption, rfl⟩
  · cases h

/-- A certificate that passed its check, none of whose signatures is forged, is
attested. -/
theorem attested_of_verified {rs : Nat → Replica C} {msg : Wire C} {qc : QC C}
    (hu : K.Unforged rs i msg) (hqc : qc ∈ msg.certs)
    (hv : verifyQc qc (K.n - K.faults) K.peerKeys = true) : K.Certifies (votesOf rs) qc := by
  have hsigs : ∀ entry ∈ qc.sigs, (qc.digest, entry.1, entry.2) ∈ msg.signatures := by
    intro entry he
    cases msg with
    | vote => cases hqc
    | hello => cases hqc
    | proposal => exact List.mem_flatMap.mpr ⟨qc, hqc, List.mem_map.mpr ⟨entry, he, rfl⟩⟩
    | phaseQc => exact List.mem_flatMap.mpr ⟨qc, hqc, List.mem_map.mpr ⟨entry, he, rfl⟩⟩
    | newView => exact List.mem_flatMap.mpr ⟨qc, hqc, List.mem_map.mpr ⟨entry, he, rfl⟩⟩
  refine ⟨signers qc K.peerKeys, ⟨?_, verifyQc_signers hv⟩, ?_⟩
  · intro j hj
    obtain ⟨_, _, pk, hkey, _⟩ := mem_signers.mp hj
    exact Finset.mem_range.mpr (peerKeys_lt hkey).1
  · intro j hj hh
    obtain ⟨sig, hmem, pk, hkey, hsig⟩ := mem_signers.mp hj
    cases (peerKeys_lt hkey).2
    exact hu _ (hsigs _ hmem) hh hsig

/-- A certificate made of counted votes is attested, whatever its signatures. -/
theorem attested_of_formed {votes : Votes C} {qc : QC C} {p : Phase}
    (ht : qc.msgType = msgTypeOf p) (hlen : K.n - K.faults ≤ qc.sigs.length)
    (hnodup : (qc.sigs.map Prod.fst).Nodup)
    (hs : ∀ i sig, (i, sig) ∈ qc.sigs → K.Polled votes p qc.view i qc.nodeHash sig) :
    K.Certifies votes qc := by
  refine ⟨(qc.sigs.map Prod.fst).toFinset, ⟨?_, ?_⟩, ?_⟩
  · intro i hi
    obtain ⟨⟨_, sig⟩, hmem, rfl⟩ := List.mem_map.mp (List.mem_toFinset.mp hi)
    exact Finset.mem_range.mpr (hs _ sig hmem).1
  · rw [List.toFinset_card_of_nodup hnodup, List.length_map]
    exact hlen
  · intro i hi hh
    obtain ⟨⟨_, sig⟩, hmem, rfl⟩ := List.mem_map.mp (List.mem_toFinset.mp hi)
    rw [QC.digest, ht]
    exact (hs _ sig hmem).2 hh

theorem authentic_feeds {rs : Nat → Replica C} {i : Nat} {effects : List (Effect C)}
    (hi : K.Honest i) {votes : Votes C} (hv : ∀ j d, votesOf rs j d → votes j d)
    (he : ∀ d verdict, .sign d verdict ∈ effects → votes i d) :
    Feeds K.peerKeys (K.Authentic rs i) (K.wiring i) K.n (K.Certifies votes) (K.Polled votes)
      effects where
  certs := by
    intro msg ha qc hqc hverified
    exact (attested_of_verified ha.1 hqc hverified).mono hv
  votes := by
    intro p v nh voter sig ha hsigned
    rcases hsigned with rfl | ⟨pk, hkey, hsig⟩
    · exact absurd rfl ha.2
    · obtain ⟨hlt, rfl⟩ := peerKeys_lt hkey
      exact ⟨hlt, fun hh => hv _ _ (ha.1 (_, voter, sig) (List.mem_singleton.mpr rfl) hh hsig)⟩
  cast := by
    intro p v nh verdict hs
    exact ⟨hi.1, fun _ => he _ verdict hs⟩
  formed := by
    intro p qc ht hlen hnodup hs
    exact attested_of_formed ht hlen hnodup hs

end Cluster

/-- The network forgets nothing: what it admits once it admits ever after. -/
def Growing (net : Delivery C) : Prop :=
  ∀ rs rs' : Nat → Replica C, (∀ i, (rs i).effects <+: (rs' i).effects) →
    ∀ i msg, net rs i msg → net rs' i msg

theorem Cluster.unforged_growing (K : Cluster C) : Growing K.Unforged := by
  intro rs rs' hg i msg hu s hs hh hv
  obtain ⟨verdict, hsigned⟩ := hu s hs hh hv
  exact ⟨verdict, (hg _).subset hsigned⟩

theorem Cluster.authentic_growing (K : Cluster C) : Growing K.Authentic := by
  intro rs rs' hg i msg ha
  exact ⟨K.unforged_growing rs rs' hg i msg ha.1, ha.2⟩

theorem update_grows {rs : Nat → Replica C} {i : Nat} {r' : Replica C}
    (h : (rs i).effects <+: r'.effects) (j : Nat) :
    (rs j).effects <+: (Function.update rs i r' j).effects := by
  rw [Function.update_apply]
  split
  · subst j
    exact h
  · exact List.prefix_rfl

theorem replicas_update (s : System C) (i : Nat) (m : Machine C) :
    System.replicas (Function.update s i m) = Function.update s.replicas i m.replica := by
  funext j
  by_cases h : j = i
  · subst j
    simp [System.replicas]
  · simp [System.replicas, h]

/-- What the nodes have done stays done along a run. -/
theorem steps_grow {K : Cluster C} {net : Delivery C} {s s' : System C}
    (h : ReflTransGen (System.Step K net) s s') (i : Nat) :
    (s i).replica.effects <+: (s' i).replica.effects := by
  induction h with
  | refl => exact List.prefix_rfl
  | tail _ hstep ih =>
    refine ih.trans ?_
    cases hstep with
    | move j ev m honest admitted moved bounded =>
      rw [Function.update_apply]
      split
      · subst i
        apply moves_invariant (P := fun r => _ <+: r.effects) _ (step_moves moved bounded admitted)
        · exact List.prefix_rfl
        · intro r r' hp hm
          exact hp.trans hm.effects_grow
      · exact List.prefix_rfl

theorem System.Reach.steps {K : Cluster C} {net : Delivery C} {s s' : System C}
    (hr : System.Reach K net s) (h : ReflTransGen (System.Step K net) s s') :
    System.Reach K net s' := by
  induction h with
  | refl => exact hr
  | tail _ hstep ih => exact ih.step hstep

/-- A network that admits more has every run of one that admits less. -/
theorem System.Reach.mono {K : Cluster C} {net net' : Delivery C}
    (h : ∀ rs i msg, net rs i msg → net' rs i msg) (hr : System.Reach K net s) :
    System.Reach K net' s := by
  induction hr with
  | start => exact .start
  | step _ hstep ih =>
    cases hstep with
    | move i ev m honest admitted moved bounded =>
      exact ih.step (.move _ i ev m honest (fun msg he => h _ _ _ (admitted msg he)) moved bounded)

/-- An invariant of the system: true at the start, kept by every move of an
honest node. -/
theorem system_invariant {K : Cluster C} {net : Delivery C} {P : (Nat → Replica C) → Prop}
    (hnet : Growing net)
    (h0 : P (fun i => startProtocol (K.wiring i) (bootReplica (K.wiring i) K.n)))
    (hs : ∀ rs i r', K.Honest i → P rs → Move K.peerKeys (net rs i) (K.wiring i) (rs i) r' →
      P (Function.update rs i r'))
    (hr : System.Reach K net s) : P s.replicas := by
  have hmoves : ∀ rs i r', K.Honest i → P rs →
      Moves K.peerKeys (net rs i) (K.wiring i) (rs i) r' →
      P (Function.update rs i r') ∧ (rs i).effects <+: r'.effects := by
    intro rs i r' hi hp hm
    induction hm with
    | refl => simpa using hp
    | @tail mid r' _ hm ih =>
      have hgrow : ∀ msg, net rs i msg → net (Function.update rs i mid) i msg :=
        hnet _ _ (update_grows ih.2) i
      have hnext := hs (Function.update rs i mid) i r' hi ih.1 (by simpa using hm.mono hgrow)
      rw [Function.update_idem] at hnext
      exact ⟨hnext, ih.2.trans hm.effects_grow⟩
  induction hr with
  | start => exact h0
  | step _ hstep ih =>
    cases hstep with
    | move i ev m honest admitted moved bounded =>
      rw [replicas_update]
      exact (hmoves _ i m.replica honest ih (step_moves moved bounded admitted)).1

end ZkStf
