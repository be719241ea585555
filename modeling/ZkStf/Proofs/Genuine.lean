import ZkStf.Proofs.Playback

namespace ZkStf
open ZkStf.Basis
open ZkStf.Basis.Ballots (Phase)
variable {C : Crypto}

/-- ed25519 as a signer needs it: an honest node's signatures verify. -/
def Cluster.SignsValidly (K : Cluster C) : Prop :=
  ∀ i d, K.Honest i → C.verify (K.key i) d (C.sign (K.secret i) d) = true

/-- The check of a receiver with quorum `quorum`. -/
def Cluster.Passes (K : Cluster C) (quorum : Nat) (qc : QC C) : Prop :=
  verifyQc qc quorum K.peerKeys = true

def Cluster.ValidVote (K : Cluster C) (ty : MsgType) (v : Nat) (nh : C.Hash) (voter : Nat)
    (sig : C.Sig) : Prop :=
  ∃ pk, K.peerKeys voter = some pk ∧ verifyVoteSig pk ty v nh sig = true

/-- Every certificate a node stores or has sent passes the check. -/
structure GenuineCerts (K : Cluster C) (r : Replica C) : Prop where
  prepareQc : ∀ qc, r.rs.prepareQc = some qc → K.Passes r.rs.quorum qc
  lockedQc : ∀ qc, r.rs.lockedQc = some qc → K.Passes r.rs.quorum qc
  staged : ∀ p v qc, r.rs.staged p v = some qc → K.Passes r.rs.quorum qc
  newViews : ∀ v sender qc, (r.rs.viewData v).newViewMsgs.get? sender = some (some qc) →
    K.Passes r.rs.quorum qc
  proposals : ∀ v leaf qc, (r.rs.viewData v).proposal = some (leaf, some qc) →
    K.Passes r.rs.quorum qc
  sent : ∀ e ∈ r.effects, ∀ msg, e.sent = some msg → ∀ qc ∈ msg.certs, K.Passes r.rs.quorum qc

/-- No signature in the message makes the receiver reject it. -/
def Cluster.SignaturesPass (K : Cluster C) (r : Replica C) (msg : Wire C) : Prop :=
  (∀ qc ∈ msg.certs, K.Passes r.rs.quorum qc) ∧
    ∀ ty v nh voter sig, msg = .vote ty v nh voter sig → K.ValidVote ty v nh voter sig

section
variable {K : Cluster C} {i : Nat}

theorem own_vote_valid (hsign : K.SignsValidly) (hi : K.Honest i) (ty : MsgType) (v : Nat)
    (nh : C.Hash) : K.ValidVote ty v nh i (signVote (K.secret i) ty v nh) := by
  refine ⟨K.key i, ?_, hsign i _ hi⟩
  unfold Cluster.peerKeys
  rw [if_pos hi.1]

theorem passes_of_votes {qc : QC C} {p : Phase} {quorum : Nat} (ht : qc.msgType = msgTypeOf p)
    (hlen : quorum ≤ qc.sigs.length) (hnodup : (qc.sigs.map Prod.fst).Nodup)
    (hs : ∀ i sig, (i, sig) ∈ qc.sigs → K.ValidVote (msgTypeOf p) qc.view qc.nodeHash i sig) :
    K.Passes quorum qc := by
  refine verifyQcSync_of_votes K.small (fun i hi => ?_) hlen hnodup (fun i sig hmem => ?_)
  · obtain ⟨pk, hkey⟩ := Option.isSome_iff_exists.mp hi
    exact (Cluster.peerKeys_lt hkey).1
  · rw [ht]
    exact hs i sig hmem

theorem genuine_feeds (hsign : K.SignsValidly) (hi : K.Honest i) {rs : Nat → Replica C}
    {effects : List (Effect C)} :
    Feeds K.peerKeys (K.Authentic rs i) (K.wiring i) K.n (K.Passes (K.n - K.faults))
      (fun p v voter nh sig => K.ValidVote (msgTypeOf p) v nh voter sig) effects where
  certs := by
    intro msg _ qc _ hv
    exact hv
  votes := by
    intro p v nh voter sig ha hsigned
    rcases hsigned with rfl | hkey
    · exact absurd rfl ha.2
    · exact hkey
  cast := by
    intro p v nh verdict _
    exact own_vote_valid hsign hi _ v nh
  formed := by
    intro p qc ht hlen hnodup hs
    exact passes_of_votes ht hlen hnodup hs

/-- The votes a node sends are its own, signed with its key. -/
def VotesOwn (w : Wiring C) (r : Replica C) : Prop :=
  ∀ e ∈ r.effects, ∀ ty v nh voter sig, e.sent = some (.vote ty v nh voter sig) →
    voter = w.myId ∧ sig = signVote w.sk ty v nh

theorem votes_own_append {w : Wiring C} {old new : List (Effect C)}
    (h : ∀ e ∈ old, ∀ ty v nh voter sig, e.sent = some (.vote ty v nh voter sig) →
      voter = w.myId ∧ sig = signVote w.sk ty v nh)
    (hn : ∀ e ∈ new, ∀ ty v nh voter sig, e.sent = some (.vote ty v nh voter sig) →
      voter = w.myId ∧ sig = signVote w.sk ty v nh) :
    ∀ e ∈ old ++ new, ∀ ty v nh voter sig, e.sent = some (.vote ty v nh voter sig) →
      voter = w.myId ∧ sig = signVote w.sk ty v nh := by
  intro e he
  rcases List.mem_append.mp he with he | he
  · exact h e he
  · exact hn e he

theorem votes_own_cast {w : Wiring C} {r : Replica C} {p : Phase} {nh : C.Hash}
    (h : VotesOwn w r) : VotesOwn w (castVote w p nh r) := by
  rw [castVote_eq]
  refine votes_own_append h ?_
  intro e he ty v nh' voter sig hs
  rcases List.mem_cons.mp he with rfl | he
  · cases hs
  · split at he
    · cases he
    · cases List.mem_singleton.mp he
      cases hs
      exact ⟨rfl, rfl⟩

theorem votes_own_enter {w : Wiring C} {r : Replica C} {v : Nat} (h : VotesOwn w r) :
    VotesOwn w (enterNewView w v r) := by
  rw [enterNewView_eq]
  refine votes_own_append h ?_
  intro e he ty v' nh voter sig hs
  rcases List.mem_append.mp he with he | he
  · split at he
    · cases he
    · cases List.mem_singleton.mp he
      cases hs
  · cases List.mem_singleton.mp he
    cases hs

theorem votes_own_move {keys : Nat → Option C.Key} {arrives : Wire C → Prop} {w : Wiring C}
    {r r' : Replica C} (h : VotesOwn w r) (hm : Move keys arrives w r r') : VotesOwn w r' := by
  have hone : ∀ e : Effect C, (∀ ty v nh voter sig, e.sent ≠ some (.vote ty v nh voter sig)) →
      ∀ e' ∈ [e], ∀ ty v nh voter sig, e'.sent = some (.vote ty v nh voter sig) →
        voter = w.myId ∧ sig = signVote w.sk ty v nh := by
    intro e hne e' he ty v nh voter sig hs
    cases List.mem_singleton.mp he
    exact absurd hs (hne ty v nh voter sig)
  cases hm with
  | enter timeout => exact votes_own_enter (by exact h)
  | propose => exact votes_own_append h (hone _ (by simp [Effect.sent]))
  | prepare => exact votes_own_cast h
  | preCommit => exact votes_own_cast (by exact h)
  | commit => exact votes_own_cast (by exact h)
  | certify => exact votes_own_append h (hone _ (by simp [Effect.sent]))
  | execute decided nh node r' known path found next valid applied =>
    unfold VotesOwn
    rw [(applyNode_frame applied).2.2]
    exact votes_own_append h (hone _ (by simp [Effect.sent]))
  | kick => exact votes_own_append h (hone _ (by simp [Effect.sent]))
  | _ => exact h

end

/-- As long as no vote that names its own receiver is delivered, every
certificate an honest node stores or sends passes the check, and no honest node
rejects an honest sender's message for its signatures. -/
theorem certificates_genuine {K : Cluster C} (hsign : K.SignsValidly) {s : System C}
    (hr : System.Reach K K.Authentic s) {i : Nat} (hi : K.Honest i) :
    GenuineCerts K (s i).replica ∧ ∀ j, K.Honest j → ∀ e ∈ (s i).replica.effects,
      ∀ msg, e.sent = some msg → K.SignaturesPass (s j).replica msg := by
  have hinv := system_invariant (K := K) (s := s) (P := fun rs => ∀ j, K.Honest j →
    Holds K.n (K.Passes (K.n - K.faults))
      (fun p v voter nh sig => K.ValidVote (msgTypeOf p) v nh voter sig) (rs j) ∧
    VotesOwn (K.wiring j) (rs j)) K.authentic_growing ?_ ?_ hr
  · obtain ⟨hh, hown⟩ := hinv i hi
    have hquorum : ∀ j, K.Honest j → (s j).replica.rs.quorum = K.n - K.faults :=
      fun j hj => (hinv j hj).1.quorum
    have hi' : (s i).replica.rs.quorum = K.n - K.faults := hquorum i hi
    refine ⟨?_, ?_⟩
    · refine ⟨?_, ?_, ?_, ?_, ?_, ?_⟩ <;> rw [hi']
      · exact fun qc hq => (hh.prepareQc qc hq).2
      · exact fun qc hq => (hh.lockedQc qc hq).2
      · exact fun p v qc hq => (hh.staged p v qc hq).2.2
      · exact fun v => (hh.views v).newViews
      · exact fun v leaf qc hq => ((hh.views v).proposal leaf _ hq).2 qc rfl
      · exact hh.sent
    · intro j hj e he msg hmsg
      refine ⟨?_, ?_⟩
      · rw [hquorum j hj]
        exact hh.sent e he msg hmsg
      · rintro ty v nh voter sig rfl
        obtain ⟨rfl, rfl⟩ := hown e he ty v nh voter sig hmsg
        exact own_vote_valid hsign hi ty v nh
  · intro j _
    refine ⟨.start, ?_⟩
    refine votes_own_enter ?_
    intro e he
    cases he
  · intro rs j r' hj hp hm k hk
    by_cases hkj : k = j
    · subst k
      rw [Function.update_self]
      exact ⟨(hp j hj).1.move (genuine_feeds hsign hj) hm, votes_own_move (hp j hj).2 hm⟩
    · rw [Function.update_of_ne hkj]
      exact hp k hk

theorem Quartet.signs_validly : Quartet.cluster.SignsValidly :=
  fun i d _ => tabled_verifies i d

theorem quartet_genuine : ∃ s : System Quartet.crypto,
    Quartet.cluster.SignsValidly ∧ System.Reach Quartet.cluster Quartet.cluster.Authentic s ∧
      ((s 0).replica.rs.staged .commit 1).isSome ∧ GenuineCerts Quartet.cluster (s 0).replica ∧
      ∀ j, Quartet.cluster.Honest j → ∀ e ∈ (s 0).replica.effects, ∀ msg, e.sent = some msg →
        Quartet.cluster.SignaturesPass (s j).replica msg := by
  have hplay : (System.play Quartet.cluster Quartet.cluster.Authentic Quartet.schedule
      (System.start Quartet.cluster)).any
        (fun s => ((s 0).replica.rs.staged .commit 1).isSome) = true := by
    decide +kernel
  obtain ⟨s, hr, hc⟩ := play_exists hplay
  refine ⟨s, Quartet.signs_validly, hr, hc, ?_⟩
  exact certificates_genuine Quartet.signs_validly hr (i := 0) (by decide)

namespace Quartet

/-- Node 3 votes twice, once in the name of the leader, which has not voted. -/
def forgery : List (Nat × Option (Event crypto)) :=
  [(0, none), (1, none), (0, some (.message (.newView 0 none 1))),
    (0, some (.message (.newView 0 none 3))),
    (1, some (.message (.proposal 1 first none 0))), (1, some (.validated 0)),
    (0, some (vote .prepare 1)), (0, some (vote .prepare 3)),
    (0, some (.message (.vote .prepare 1 (.inl 1) 0 (3, ⟨.prepare, 1, .inl 1⟩))))]

def forged : QC crypto :=
  ⟨.prepare, 1, .inl 1, [(1, 1), (3, 3), (0, 3)].map
    (fun entry => (entry.1, (entry.2, ⟨.prepare, 1, .inl 1⟩)))⟩

end Quartet

/-- A vote in the leader's own name is counted unchecked: the leader stores and
broadcasts a certificate that no node accepts. -/
theorem forged_certificate : ∃ s : System Quartet.crypto,
    Quartet.cluster.byz.card ≤ Quartet.cluster.faults ∧ Quartet.cluster.SignsValidly ∧
      System.Reach Quartet.cluster Quartet.cluster.Unforged s ∧ Quartet.cluster.Honest 0 ∧
      (s 0).replica.rs.prepareQc = some Quartet.forged ∧
      (s 0).replica.rs.staged .prepare 1 = some Quartet.forged ∧
      Effect.broadcast (.phaseQc .preCommit 1 Quartet.forged 0) ∈ (s 0).replica.effects ∧
      ¬ Quartet.cluster.Passes (s 0).replica.rs.quorum Quartet.forged := by
  have hplay : (System.play Quartet.cluster Quartet.cluster.Unforged Quartet.forgery
      (System.start Quartet.cluster)).any (fun s =>
        decide ((s 0).replica.rs.prepareQc = some Quartet.forged ∧
          (s 0).replica.rs.staged .prepare 1 = some Quartet.forged ∧
          Effect.broadcast (.phaseQc .preCommit 1 Quartet.forged 0) ∈ (s 0).replica.effects ∧
          verifyQc Quartet.forged (s 0).replica.rs.quorum Quartet.cluster.peerKeys = false))
      = true := by
    decide +kernel
  obtain ⟨s, hr, hc⟩ := play_exists hplay
  obtain ⟨hprepare, hstaged, hsent, hfails⟩ := of_decide_eq_true hc
  refine ⟨s, by decide, Quartet.signs_validly, hr, by decide, hprepare, hstaged, hsent, ?_⟩
  intro hpass
  cases hfails.symm.trans hpass

end ZkStf
