import ZkStf.Model.Fleet
import ZkStf.Proofs.Genuine
import ZkStf.Proofs.Outbox
import ZkStf.Proofs.SafeProposal

namespace ZkStf
open ZkStf.Basis
open ZkStf.Basis.Ballots
open Relation (ReflTransGen)
variable {C : Crypto}

/-- A message is in the post for a node once a peer has sent it there. -/
def Cluster.Posted (K : Cluster C) : Delivery C := fun rs i msg =>
  ∃ j, K.Honest j ∧ j ≠ i ∧
    (.broadcast msg ∈ (rs j).effects ∨ .sendTo i msg ∈ (rs j).effects)

/-- The calm runs of a cluster, with the events each node has handled so far:
nothing arrives but what a peer has sent, no timer goes off while its own view
lasts, and no view passes `u64::MAX`. -/
inductive Cluster.Calm (K : Cluster C) : (Nat → List (Event C)) → System C → Prop
  | start : Calm K (fun _ => []) (System.start K)
  | step {log : Nat → List (Event C)} {s : System C} (i : Nat) (ev : Option (Event C))
      (m : Machine C) : Calm K log s → K.Honest i →
      (∀ msg, ev = some (.message msg) → K.Posted s.replicas i msg) →
      (∀ v, ev = some (.timer v) → v < (s i).replica.rs.view) →
      Machine.Step K.peerKeys (K.wiring i) ev (s i) m → ¬ Wraps (s i).replica m.replica →
      Calm K (Function.update log i (log i ++ ev.toList)) (Function.update s i m)

theorem Cluster.posted_growing (K : Cluster C) : Growing K.Posted := by
  rintro rs rs' hg i msg ⟨j, hj, hji, hsent⟩
  exact ⟨j, hj, hji, hsent.imp (fun h => (hg j).subset h) (fun h => (hg j).subset h)⟩

theorem Cluster.Calm.reach {K : Cluster C} {log : Nat → List (Event C)} {s : System C}
    (hc : K.Calm log s) : System.Reach K K.Posted s := by
  induction hc with
  | start => exact .start
  | step i ev m _ hi hpost _ hstep hw ih => exact ih.step (.move _ i ev m hi hpost hstep hw)

/-- Every signature in the certificate was made by the voter it names. -/
def Endorsed (votes : Votes C) (qc : QC C) : Prop := ∀ entry ∈ qc.sigs, votes entry.1 qc.digest

/-- What holds at every moment of a cluster whose nodes hear from each other only. -/
structure Candid (K : Cluster C) (rs : Nat → Replica C) : Prop where
  sane : Sane K rs
  minutes : ∀ i, K.Honest i → Minutes K rs (rs i)
  endorsed : ∀ i, K.Honest i → Holds K.n (Endorsed (votesOf rs))
    (fun p v voter nh _ => votesOf rs voter (voteDigest (msgTypeOf p) v nh)) (rs i)
  genuine : ∀ i, K.Honest i → Holds K.n (K.Passes (K.n - K.faults))
    (fun p v voter nh sig => K.ValidVote (msgTypeOf p) v nh voter sig) (rs i)
  addressed : ∀ i, ∀ e ∈ (rs i).effects, e.Addressed (K.wiring i) (rs i)

section
variable {K : Cluster C} {rs : Nat → Replica C} {i j : Nat} {r' : Replica C} {msg : Wire C}

/-- The sender of a message in the post signed everything in its own name. -/
theorem Candid.posted (h : Candid K rs) (hp : K.Posted rs i msg) : K.Truthful rs i msg := by
  obtain ⟨j, hj, hji, hsent⟩ := hp
  have hcerts : ∀ e ∈ (rs j).effects, e.sent = some msg → ∀ qc ∈ msg.certs,
      Endorsed (votesOf rs) qc := fun e he hm => (h.endorsed j hj).sent e he msg hm
  have hunforged : ∀ e ∈ (rs j).effects, e.sent = some msg → msg.voter = none →
      K.Unforged rs i msg := by
    intro e he hm hv s hs _ _
    cases msg with
    | vote => cases hv
    | _ =>
      obtain ⟨qc, hqc, hs⟩ := List.mem_flatMap.mp hs
      obtain ⟨entry, hentry, rfl⟩ := List.mem_map.mp hs
      exact hcerts e he hm qc hqc entry hentry
  rcases hsent with hsent | hsent
  · have haddr := h.addressed j _ hsent
    cases msg with
    | proposal v node justify sender =>
      obtain ⟨rfl, _⟩ := haddr
      refine ⟨⟨hunforged _ hsent rfl rfl, nofun⟩, ?_⟩
      rintro _ ⟨⟩
      exact ⟨hj.1, fun _ => ⟨_, hsent, rfl⟩⟩
    | phaseQc ty v qc sender =>
      obtain ⟨rfl, _⟩ := haddr
      refine ⟨⟨hunforged _ hsent rfl rfl, nofun⟩, ?_⟩
      rintro _ ⟨⟩
      exact ⟨hj.1, fun _ => ⟨_, hsent, rfl⟩⟩
    | hello => cases haddr
    | vote => cases haddr
    | newView => cases haddr
  · have haddr := h.addressed j _ hsent
    cases msg with
    | vote ty v nh voter sig =>
      obtain ⟨rfl, _, _, _, _, hsigned⟩ := haddr
      refine ⟨⟨?_, ?_⟩, nofun⟩
      · intro s hs _ _
        cases List.mem_singleton.mp hs
        exact hsigned
      · intro he
        exact hji (Option.some.inj he)
    | newView v justify sender =>
      obtain ⟨rfl, _⟩ := haddr
      refine ⟨⟨hunforged _ hsent rfl rfl, nofun⟩, ?_⟩
      rintro _ ⟨⟩
      exact ⟨hj.1, fun _ => ⟨_, hsent, rfl⟩⟩
    | hello => cases haddr
    | proposal => cases haddr
    | phaseQc => cases haddr

/-- What was signed, sent and told to a node is the sender's own doing. -/
theorem Minutes.step (hmin : ∀ j, K.Honest j → Minutes K rs (rs j)) (hsane : Sane K rs)
    (hi : K.Honest i) (hm : Move K.peerKeys (K.Truthful rs i) (K.wiring i) (rs i) r')
    (hj : K.Honest j) : Minutes K (Function.update rs i r') (Function.update rs i r' j) := by
  have hlater := hm.later
  by_cases hji : j = i
  · subst j
    have hheard : Heard K (Function.update rs i r') (K.Truthful rs i) := by
      refine ⟨?_, ?_⟩
      · intro u justify sender ha
        obtain ⟨hlt, hsent⟩ := ha.2 sender rfl
        exact hlater.told ⟨hlt, fun hh => (hmin sender hh).reports u justify sender (hsent hh)⟩
      · intro v leaf high ha
        exact hlater.proposed (ha.2 _ rfl).2
    rw [Function.update_self]
    exact ((hmin i hi).mono hlater).move (hsane.holds i hi) (hsane.voter i hi) hi
      (Function.update_self ..) hheard hm
  · rw [Function.update_of_ne hji]
    exact (hmin j hj).mono hlater

theorem Endorsed.mono {votes votes' : Votes C} {qc : QC C} (h : Endorsed votes qc)
    (hv : ∀ i d, votes i d → votes' i d) : Endorsed votes' qc :=
  fun entry he => hv _ _ (h entry he)

theorem endorsed_feeds (h : Candid K rs) {votes : Votes C} {effects : List (Effect C)}
    (hv : ∀ j d, votesOf rs j d → votes j d)
    (he : ∀ d verdict, .sign d verdict ∈ effects → votes i d) :
    Feeds K.peerKeys (K.Posted rs i) (K.wiring i) K.n (Endorsed votes)
      (fun p v voter nh _ => votes voter (voteDigest (msgTypeOf p) v nh)) effects where
  certs := by
    rintro msg ⟨j, hj, _, hsent⟩ qc hqc _
    rcases hsent with hsent | hsent
    · exact ((h.endorsed j hj).sent _ hsent msg rfl qc hqc).mono hv
    · exact ((h.endorsed j hj).sent _ hsent msg rfl qc hqc).mono hv
  votes := by
    rintro p v nh voter sig ⟨j, hj, _, hsent⟩ _
    rcases hsent with hsent | hsent
    · cases h.addressed j _ hsent
    · obtain ⟨rfl, _, _, _, _, hsigned⟩ := h.addressed j _ hsent
      exact hv _ _ hsigned
  cast := by
    intro p v nh verdict hs
    exact he _ verdict hs
  formed := by
    intro p qc ht _ _ hs entry hentry
    rw [QC.digest, ht]
    exact hs entry.1 entry.2 hentry

theorem Candid.move (hsign : K.SignsValidly) (h : Candid K rs) (hi : K.Honest i)
    (hm : Move K.peerKeys (K.Posted rs i) (K.wiring i) (rs i) r') :
    Candid K (Function.update rs i r') := by
  have ht : Move K.peerKeys (K.Truthful rs i) (K.wiring i) (rs i) r' :=
    hm.mono (fun _ hp => h.posted hp)
  have ha : Move K.peerKeys (K.Authentic rs i) (K.wiring i) (rs i) r' := ht.mono (fun _ hp => hp.1)
  have hgrow := votesOf_grow hm
  have hown : ∀ d verdict, .sign d verdict ∈ r'.effects →
      votesOf (Function.update rs i r') i d := by
    intro d verdict hs
    exact ⟨verdict, by simpa using hs⟩
  have hendorsed : ∀ j, K.Honest j → Holds K.n (Endorsed (votesOf (Function.update rs i r')))
      (fun p v voter nh _ => votesOf (Function.update rs i r') voter
        (voteDigest (msgTypeOf p) v nh)) (rs j) :=
    fun j hj => (h.endorsed j hj).mono (fun qc hq => hq.mono hgrow)
      (fun _ _ _ _ _ hv => hgrow _ _ hv)
  refine ⟨h.sane.move hi ha, fun j hj => Minutes.step h.minutes h.sane hi ht hj, ?_, ?_, ?_⟩
  · intro j hj
    by_cases hji : j = i
    · subst j
      rw [Function.update_self]
      exact (hendorsed i hi).move (endorsed_feeds h hgrow hown) hm
    · rw [Function.update_of_ne hji]
      exact hendorsed j hj
  · intro j hj
    by_cases hji : j = i
    · subst j
      rw [Function.update_self]
      exact (h.genuine i hi).move (genuine_feeds hsign hi) ha
    · rw [Function.update_of_ne hji]
      exact h.genuine j hj
  · intro j e he
    by_cases hji : j = i
    · subst j
      rw [Function.update_self] at he ⊢
      rcases hm.addressed he with he | he
      · exact (h.addressed i e he).move hm
      · exact he
    · rw [Function.update_of_ne hji] at he ⊢
      exact h.addressed j e he

theorem Candid.start (K : Cluster C) :
    Candid K (fun i => startProtocol (K.wiring i) (bootReplica (K.wiring i) K.n)) where
  sane := Sane.start K
  minutes _ hi := start_minutes hi rfl
  endorsed _ _ := .start
  genuine _ _ := .start
  addressed i := reach_addressed (w := K.wiring i) .start

theorem Deed.mono {keys : Nat → Option C.Key} {arrives arrives' : Wire C → Prop} {expires : Prop}
    {w : Wiring C} {r r' : Replica C} (ha : ∀ msg, arrives msg → arrives' msg)
    (hd : Deed keys arrives expires w r r') : Deed keys arrives' expires w r r' :=
  ⟨hd.move.mono ha, hd.announced, hd.dropped, hd.paced, hd.left⟩

/-- Induction over the calm runs of a cluster, deed by deed. -/
theorem calm_invariant {P : (Nat → Replica C) → Prop} (hsign : K.SignsValidly)
    (h0 : P (fun i => startProtocol (K.wiring i) (bootReplica (K.wiring i) K.n)))
    (hs : ∀ rs i r', K.Honest i → Candid K rs → Candid K (Function.update rs i r') → P rs →
      Deed K.peerKeys (K.Posted rs i) False (K.wiring i) (rs i) r' →
      P (Function.update rs i r'))
    {log : Nat → List (Event C)} {s : System C} (hc : K.Calm log s) :
    Candid K s.replicas ∧ P s.replicas := by
  have hdeeds : ∀ rs i r', K.Honest i → Candid K rs ∧ P rs →
      Deeds K.peerKeys (K.Posted rs i) False (K.wiring i) (rs i) r' →
      (Candid K (Function.update rs i r') ∧ P (Function.update rs i r')) ∧
        (rs i).effects <+: r'.effects := by
    intro rs i r' hi hp hd
    induction hd with
    | refl => simpa using hp
    | @tail mid r' _ hd ih =>
      have hgrow : ∀ msg, K.Posted rs i msg → K.Posted (Function.update rs i mid) i msg :=
        K.posted_growing _ _ (update_grows ih.2) i
      have hnext : Deed K.peerKeys (K.Posted (Function.update rs i mid) i) False (K.wiring i)
          (Function.update rs i mid i) r' := by simpa using hd.mono hgrow
      have hcandid := ih.1.1.move hsign hi hnext.move
      have hprop := hs _ i r' hi ih.1.1 hcandid ih.1.2 hnext
      rw [Function.update_idem] at hcandid hprop
      exact ⟨⟨hcandid, hprop⟩, ih.2.trans hd.move.effects_grow⟩
  induction hc with
  | start => exact ⟨Candid.start K, h0⟩
  | step i ev m _ hi hpost hcalm hstep hw ih =>
    rw [replicas_update]
    refine (hdeeds _ i m.replica hi ih (step_deeds hstep hw hpost ?_)).1
    intro hev
    exact Nat.lt_irrefl _ (hcalm _ hev)

end

/-- What a node of a calm run does next: finish its pass, or take the `k`-th
effect of a peer, the oldest answer of its worker, or a timer of an earlier view. -/
inductive Cue
  | pass
  | letter (j k : Nat)
  | answer
  | alarm (v : Nat)

def Cluster.cue (K : Cluster C) (s : System C) (i : Nat) : Cue → Option (Option (Event C))
  | .pass => some none
  | .letter j k =>
    if K.Honest j ∧ j ≠ i then
      ((s j).replica.effects[k]?.bind (Effect.letterTo i)).map (fun msg => some (.message msg))
    else none
  | .answer => some (some (.validated 0))
  | .alarm v => if v < (s i).replica.rs.view then some (some (.timer v)) else none

/-- Node by node, turn by turn, along a calm run of a build with overflow checks. -/
def Cluster.rehearse (K : Cluster C) : List (Nat × Cue) → System C → Option (System C)
  | [], s => some s
  | (i, cue) :: rest, s =>
    if K.Honest i ∧ K.overflowChecks = true then
      (K.cue s i cue).bind (fun ev => ((s i).turn K.peerKeys (K.wiring i) ev).bind (fun m =>
        K.rehearse rest (Function.update s i m)))
    else none

theorem cue_calm {K : Cluster C} {s : System C} {i : Nat} {cue : Cue} {ev : Option (Event C)}
    (h : K.cue s i cue = some ev) :
    (∀ msg, ev = some (.message msg) → K.Posted s.replicas i msg) ∧
      ∀ v, ev = some (.timer v) → v < (s i).replica.rs.view := by
  cases cue with
  | pass => cases h; simp
  | answer => cases h; simp
  | alarm v =>
    simp only [Cluster.cue] at h
    split at h
    · cases h
      simpa
    · cases h
  | letter j k =>
    simp only [Cluster.cue] at h
    split at h
    · rename_i hpeer
      obtain ⟨msg, hmsg, rfl⟩ := Option.map_eq_some_iff.mp h
      obtain ⟨e, he, hletter⟩ := Option.bind_eq_some_iff.mp hmsg
      have hmem := List.mem_of_getElem? he
      refine ⟨?_, by simp⟩
      rintro _ ⟨⟩
      refine ⟨j, hpeer.1, hpeer.2, ?_⟩
      cases e with
      | broadcast msg' =>
        cases hletter
        exact Or.inl hmem
      | sendTo peer msg' =>
        simp only [Effect.letterTo] at hletter
        split at hletter
        · subst peer
          cases hletter
          exact Or.inr hmem
        · cases hletter
      | _ => cases hletter
    · cases h

theorem rehearse_calm {K : Cluster C} {cues : List (Nat × Cue)} {log : Nat → List (Event C)}
    {s s' : System C} (hc : K.Calm log s) (h : K.rehearse cues s = some s') :
    ∃ log', K.Calm log' s' := by
  induction cues generalizing log s with
  | nil =>
    cases h
    exact ⟨log, hc⟩
  | cons turn rest ih =>
    obtain ⟨i, cue⟩ := turn
    unfold Cluster.rehearse at h
    split at h
    · rename_i hok
      obtain ⟨hi, hchecks⟩ := hok
      obtain ⟨ev, hcue, h⟩ := Option.bind_eq_some_iff.mp h
      obtain ⟨m, hturn, hrest⟩ := Option.bind_eq_some_iff.mp h
      obtain ⟨hpost, htimer⟩ := cue_calm hcue
      obtain ⟨log', hc'⟩ : ∃ log', K.Calm log' (Function.update s i m) := by
        apply turn_run (P := fun m => ∃ log', K.Calm log' (Function.update s i m)) _ _ hturn
        · exact ⟨log, by simpa using hc⟩
        · rintro m m' ⟨log', hm⟩ hstep
          have hnext := hm.step i none m' hi (by simp) (by simp) (by simpa using hstep)
            (by simpa using step_bounded hstep hchecks)
          exact ⟨_, by simpa using hnext⟩
        · intro m' hstep
          exact ⟨_, hc.step i ev m' hi hpost htimer hstep (step_bounded hstep hchecks)⟩
      exact ih hc' hrest
    · cases h

theorem rehearse_exists {K : Cluster C} {cues : List (Nat × Cue)} {check : System C → Bool}
    (h : (K.rehearse cues (System.start K)).any check = true) :
    ∃ log s, K.Calm log s ∧ check s = true := by
  obtain ⟨s, hs, hc⟩ := Option.any_eq_true _ _ |>.mp h
  obtain ⟨log, hcalm⟩ := rehearse_calm .start hs
  exact ⟨log, s, hcalm, hc⟩

end ZkStf
