import ZkStf.Proofs.NewViews

namespace ZkStf
open ZkStf.Basis
open ZkStf.Basis.Ballots (Phase)
variable {C : Crypto}

/-- The id a message gives its sender. -/
def Wire.declared : Wire C → Nat
  | .hello nodeId _ => nodeId
  | .proposal _ _ _ sender => sender
  | .phaseQc _ _ _ sender => sender
  | .vote _ _ _ voter _ => voter
  | .newView _ _ sender => sender

/-- The messages a node has on record, by the id they are recorded under. -/
inductive Recorded (r : Replica C) (y : Nat) : Wire C → Prop
  | vote (p : Phase) (v : Nat) (nh : C.Hash) (sig : C.Sig)
      (get : ((r.rs.viewData v).votes p).get? y = some (nh, sig)) :
      Recorded r y (.vote (msgTypeOf p) v nh y sig)
  | newView (v : Nat) (justify : Option (QC C))
      (get : (r.rs.viewData v).newViewMsgs.get? y = some justify) :
      Recorded r y (.newView v justify y)
  | proposal (v : Nat) (leaf : Node C) (high : Option (QC C)) (leader : r.rs.leaderFor v = y)
      (get : (r.rs.viewData v).proposal = some (leaf, high)) :
      Recorded r y (.proposal v leaf high y)
  | phaseQc (p : Phase) (v : Nat) (qc : QC C) (leader : r.rs.leaderFor v = y)
      (get : r.rs.staged p v = some qc) : Recorded r y (.phaseQc (announcedBy p) v qc y)

/-- The node has gone on from view `v`: the timer of the next view is armed, which is
view 0 after `u64::MAX`. -/
def Replica.HasLeft (r : Replica C) (v : Nat) : Prop :=
  ∃ next ms, (next = v + 1 ∨ 2 ^ 64 ≤ v + 1 ∧ next = 0) ∧ .armTimer next ms ∈ r.effects

/-- The node is itself the author of the message. -/
def Own (w : Wiring C) (r : Replica C) (msg : Wire C) : Prop :=
  msg.declared = w.myId ∧
    match msg with
    | .vote ty v nh _ sig => r.Signed (voteDigest ty v nh) ∧ sig = signVote w.sk ty v nh
    | .newView v _ _ => r.HasLeft v
    | _ => r.HasSent msg

/-- A vote in the name of another node passes under a key of that node. -/
def Vouched (w : Wiring C) (keys : Nat → C.Key → Prop) : Wire C → Prop
  | .vote ty v nh voter sig =>
    voter = w.myId ∨ ∃ pk, keys voter pk ∧ verifyVoteSig pk ty v nh sig = true
  | _ => True

section
variable {keys : Nat → Option C.Key} {arrives : Wire C → Prop} {w : Wiring C}
  {r r' : Replica C}

theorem Move.size (hm : Move keys arrives w r r') : r'.rs.n = r.rs.n := by
  cases hm with
  | receive ty p view qc => simp only [withRs_rs, receiveQc_eq, stageQc_eq]; rfl
  | certify p ord qc => simp only [emit_rs, withRs_rs, stageQc_eq]; rfl
  | enter => rw [enterNewView_eq]; rfl
  | prepare => rw [castVote_eq]; rfl
  | preCommit => rw [castVote_eq]; rfl
  | commit => rw [castVote_eq]; rfl
  | execute decided nh node r' known path found next valid applied =>
    rw [(applyNode_frame applied).1]
  | _ => rfl

theorem Move.leaderFor (hm : Move keys arrives w r r') (v : Nat) :
    r'.rs.leaderFor v = r.rs.leaderFor v :=
  leaderFor_congr hm.size v

theorem cast_votes {p q : Phase} {nh nh' : C.Hash} {v y : Nat} {sig : C.Sig}
    (h : (((castVote w p nh r).rs.viewData v).votes q).get? y = some (nh', sig)) :
    ((r.rs.viewData v).votes q).get? y = some (nh', sig) ∨
      (y = w.myId ∧ q = p ∧ v = r.rs.view ∧ nh' = nh ∧
        sig = signVote w.sk (msgTypeOf p) r.rs.view nh) := by
  rw [castVote_eq] at h
  simp only [vdMut_viewData] at h
  split at h
  · subst v
    dsimp only at h
    split at h
    · rw [Function.update_apply] at h
      split at h
      · subst q
        rw [EntryMap.get?_insert] at h
        split at h
        · cases h
          exact Or.inr ⟨by assumption, rfl, rfl, rfl, rfl⟩
        · exact Or.inl h
      · exact Or.inl h
    · exact Or.inl h
  · exact Or.inl h

/-- A vote is counted as it arrived, or is the node's own. -/
theorem Move.vote_cases (hm : Move keys arrives w r r') {p : Phase} {v y : Nat} {nh : C.Hash}
    {sig : C.Sig} (h : ((r'.rs.viewData v).votes p).get? y = some (nh, sig)) :
    ((r.rs.viewData v).votes p).get? y = some (nh, sig) ∨
      (arrives (.vote (msgTypeOf p) v nh y sig) ∧
        Vouched w (fun i pk => keys i = some pk) (.vote (msgTypeOf p) v nh y sig)) ∨
      Own w r' (.vote (msgTypeOf p) v nh y sig) := by
  have hsame : (r'.rs.viewData v).votes = (r.rs.viewData v).votes →
      ((r.rs.viewData v).votes p).get? y = some (nh, sig) := fun he => he ▸ h
  have hcast : ∀ q nh' held, (∀ u, held.viewData u = r.rs.viewData u) →
      r' = castVote w q nh' { r with rs := held } →
      ((r.rs.viewData v).votes p).get? y = some (nh, sig) ∨
        Own w r' (.vote (msgTypeOf p) v nh y sig) := by
    intro q nh' held hd he
    rw [he] at h
    rcases cast_votes h with h | ⟨rfl, rfl, rfl, rfl, rfl⟩
    · exact Or.inl (hd v ▸ h)
    · refine Or.inr ⟨rfl, ?_, rfl⟩
      rw [he]
      exact castVote_signed.mpr (Or.inr rfl)
  cases hm with
  | count ty q view nh' voter sig' arrived leader phase signed =>
    simp only [withRs_rs, recordVote, vdMut_viewData] at h
    split at h
    · subst v
      dsimp only at h
      rw [Function.update_apply] at h
      split at h
      · subst p
        rcases EntryMap.get?_insertNew h with h | ⟨rfl, hv, _⟩
        · exact Or.inl h
        · cases hv
          cases votedPhase_eq phase
          exact Or.inr (Or.inl ⟨arrived, signed⟩)
      · exact Or.inl h
    · exact Or.inl h
  | prepare leaf =>
    exact (hcast .prepare (nodeHash leaf) r.rs (fun _ => rfl) rfl).imp_right Or.inr
  | preCommit qc =>
    exact (hcast .preCommit qc.nodeHash (holdPrepare qc r.rs) (fun _ => rfl) rfl).imp_right Or.inr
  | commit qc =>
    exact (hcast .commit qc.nodeHash (holdLock qc r.rs) (fun _ => rfl) rfl).imp_right Or.inr
  | receive ty q view qc =>
    refine Or.inl (hsame ?_)
    rw [withRs_rs, receiveQc_eq, stageQc_eq]
    exact field_update ViewData.votes (by rfl) v
  | propose =>
    exact Or.inl (hsame ((field_update ViewData.votes (by rfl) v).trans
      (field_update ViewData.votes (by rfl) v)))
  | certify q ord qc =>
    refine Or.inl (hsame ?_)
    rw [emit_rs, withRs_rs, stageQc_eq]
    exact (field_update ViewData.votes (by rfl) v).trans (field_update ViewData.votes (by rfl) v)
  | enter => exact Or.inl (hsame (enter_field ViewData.votes v (fun _ _ => rfl)))
  | stash => exact Or.inl (hsame (field_update ViewData.votes (by rfl) v))
  | collect => exact Or.inl (hsame (field_update ViewData.votes (by rfl) v))
  | skip => exact Or.inl (hsame (field_update ViewData.votes (by rfl) v))
  | execute decided nh node r' known path found next valid applied =>
    exact Or.inl (hsame (by rw [(applyNode_frame applied).1]))
  | _ => exact Or.inl h

theorem stage_staged {p q : Phase} {view v : Nat} {qc qc' : QC C} {rs : ReplicaState C}
    (h : (stageQc p view qc rs).staged q v = some qc') :
    rs.staged q v = some qc' ∨ (q = p ∧ v = view ∧ qc' = qc) := by
  rw [stageQc_eq] at h
  dsimp only at h
  split at h
  · exact Or.inl h
  · rw [Function.update_apply] at h
    split at h
    · subst q
      rw [Function.update_apply] at h
      split at h
      · exact Or.inr ⟨rfl, by assumption, (Option.some.inj h).symm⟩
      · exact Or.inl h
    · exact Or.inl h

theorem announced_of_certified {ty : MsgType} {p : Phase} (h : certifiedPhase ty = some p) :
    ty = announcedBy p := by
  cases ty <;> cases h <;> rfl

/-- A certificate is staged as it arrived from the leader, or is the node's own. -/
theorem Move.staged_cases (hm : Move keys arrives w r r') {p : Phase} {v : Nat} {qc : QC C}
    (h : r'.rs.staged p v = some qc) :
    r.rs.staged p v = some qc ∨ arrives (.phaseQc (announcedBy p) v qc (r.rs.leaderFor v)) ∨
      (r.rs.leaderFor v = w.myId ∧ r'.HasSent (.phaseQc (announcedBy p) v qc w.myId)) := by
  cases hm with
  | receive ty q view qc' sender arrived leader phase type same sigs =>
    rw [withRs_rs, receiveQc_eq] at h
    rcases stage_staged h with h | ⟨rfl, rfl, rfl⟩
    · exact Or.inl h
    · cases announced_of_certified phase
      exact Or.inr (Or.inl (leader ▸ arrived))
  | certify q ord qc' leader formed =>
    rw [emit_rs, withRs_rs] at h
    rcases stage_staged h with h | ⟨rfl, rfl, rfl⟩
    · exact Or.inl h
    · exact Or.inr (Or.inr ⟨leader, .broadcast _, by simp, rfl⟩)
  | enter => rw [enterNewView_eq] at h; exact Or.inl h
  | prepare => rw [castVote_eq] at h; exact Or.inl h
  | preCommit => rw [castVote_eq] at h; exact Or.inl h
  | commit => rw [castVote_eq] at h; exact Or.inl h
  | execute decided nh node r' known path found next valid applied =>
    rw [(applyNode_frame applied).1] at h
    exact Or.inl h
  | _ => exact Or.inl h

theorem Own.mono (hg : r.effects <+: r'.effects) {msg : Wire C} (h : Own w r msg) :
    Own w r' msg := by
  refine ⟨h.1, ?_⟩
  have hown := h.2
  cases msg with
  | vote ty v nh voter sig =>
    obtain ⟨verdict, hs⟩ := hown.1
    exact ⟨⟨verdict, hg.subset hs⟩, hown.2⟩
  | newView v justify sender =>
    obtain ⟨next, ms, hnext, he⟩ := hown
    exact ⟨next, ms, hnext, hg.subset he⟩
  | hello => exact Replica.HasSent.mono hown hg
  | proposal => exact Replica.HasSent.mono hown hg
  | phaseQc => exact Replica.HasSent.mono hown hg

/-- Whatever the node has on record, it wrote itself or got from `src`. -/
def Sourced (src : Wire C → Prop) (w : Wiring C) (r : Replica C) : Prop :=
  ∀ y msg, Recorded r y msg → Own w r msg ∨ src msg

theorem Sourced.move {src : Wire C → Prop} (h : Sourced src w r)
    (hsrc : ∀ msg, arrives msg → Vouched w (fun i pk => keys i = some pk) msg → src msg)
    (hm : Move keys arrives w r r') : Sourced src w r' := by
  have hold : ∀ {y msg}, Recorded r y msg → Own w r' msg ∨ src msg :=
    fun hrec => (h _ _ hrec).imp_left (Own.mono hm.effects_grow)
  intro y msg hrec
  cases hrec with
  | vote p v nh sig get =>
    rcases hm.vote_cases get with get | ⟨ha, hv⟩ | hown
    · exact hold (.vote p v nh sig get)
    · exact Or.inr (hsrc _ ha hv)
    · exact Or.inl hown
  | newView v justify get =>
    rcases hm.collected_cases get with get | ha | ⟨rfl, rfl, _, leaves⟩
    · exact hold (.newView v justify get)
    · exact Or.inr (hsrc _ ha trivial)
    · obtain ⟨ms, harmed⟩ := leaves.armed
      exact Or.inl ⟨rfl, _, ms, Or.inl rfl, harmed⟩
  | proposal v leaf high leader get =>
    rw [hm.leaderFor] at leader
    rcases hm.stored_cases get with get | ha | ⟨hl, hs⟩
    · exact hold (.proposal v leaf high leader get)
    · exact Or.inr (hsrc _ (leader ▸ ha) trivial)
    · cases leader.symm.trans hl
      exact Or.inl ⟨rfl, hs⟩
  | phaseQc p v qc leader get =>
    rw [hm.leaderFor] at leader
    rcases hm.staged_cases get with get | ha | ⟨hl, hs⟩
    · exact hold (.phaseQc p v qc leader get)
    · exact Or.inr (hsrc _ (leader ▸ ha) trivial)
    · cases leader.symm.trans hl
      exact Or.inl ⟨rfl, hs⟩

theorem Sourced.enter {src : Wire C → Prop} (h : Sourced src w r) {next : Nat}
    (hnext : next = r.rs.view + 1 ∨ 2 ^ 64 ≤ r.rs.view + 1 ∧ next = 0) :
    Sourced src w (enterNewView w next r) := by
  have hgrow : r.effects <+: (enterNewView w next r).effects := by
    rw [enterNewView_eq]
    exact List.prefix_append _ _
  have hleader : ∀ v, (enterNewView w next r).rs.leaderFor v = r.rs.leaderFor v := by
    intro v
    rw [enterNewView_eq]
    rfl
  have hold : ∀ {y msg}, Recorded r y msg → Own w (enterNewView w next r) msg ∨ src msg :=
    fun hrec => (h _ _ hrec).imp_left (Own.mono hgrow)
  intro y msg hrec
  cases hrec with
  | newView v justify get =>
    rcases enter_collected get with get | ⟨rfl, rfl, rfl⟩
    · exact hold (.newView v _ get)
    · exact Or.inl ⟨rfl, next, r.rs.timeoutIntervalMs, hnext, by simp [enterNewView_eq]⟩
  | vote p v nh sig get =>
    rw [enter_field ViewData.votes v (fun _ _ => rfl)] at get
    exact hold (.vote p v nh sig get)
  | proposal v leaf high leader get =>
    rw [enter_field ViewData.proposal v (fun _ _ => rfl)] at get
    exact hold (.proposal v leaf high (hleader v ▸ leader) get)
  | phaseQc p v qc leader get =>
    rw [hleader] at leader
    rw [enterNewView_eq] at get
    exact hold (.phaseQc p v qc leader get)

theorem Sourced.start {src : Wire C → Prop} {n : Nat} :
    Sourced src w (startProtocol w (bootReplica w n)) := by
  have hboot : Sourced src w ((bootReplica w n).withRs (fun rs => { rs with view := 0 })) := by
    intro y msg hrec
    cases hrec with
    | newView v justify get => cases get
    | vote p v nh sig get => cases get
    | proposal v leaf high leader get => cases get
    | phaseQc p v qc leader get => cases get
  exact hboot.enter (Or.inl rfl)

theorem Sourced.mono {src src' : Wire C → Prop} (h : Sourced src w r)
    (hs : ∀ msg, src msg → src' msg) : Sourced src' w r :=
  fun y msg hrec => (h y msg hrec).imp_right (hs msg)

end

/-- The key a handshake writes for an id. -/
def Act.keyFor (y : Nat) : Act C → Option C.Key
  | .greet _ reply =>
    (handshake reply).bind (fun hello => if hello.1 = y then C.keyOfBytes hello.2 else none)
  | _ => none

/-- The key of an id after some acts: that of the last Hello to declare it. -/
def keyAfter (myId : Nat) (ownKey : C.Key) (acts : List (Act C)) (y : Nat) : Option C.Key :=
  acts.foldl (fun key a => (a.keyFor y).or key) (if y = myId then some ownKey else none)

/-- The message arrived in a frame; a vote in another's name was checked
against a key that the table held at some moment. -/
def Delivered (w : Wiring C) (ownKey : C.Key) (acts : List (Act C)) (msg : Wire C) : Prop :=
  (∃ c, .frame c msg ∈ acts) ∧
    Vouched w (fun i pk =>
      ∃ before, before <+: acts ∧ keyAfter w.myId ownKey before i = some pk) msg

structure Attributed (w : Wiring C) (ownKey : C.Key) (acts : List (Act C)) (h : Host C) :
    Prop where
  keys : ∀ y, h.peerKeys.get? y = keyAfter w.myId ownKey acts y
  inbox : ∀ entry ∈ h.inbox, .frame entry.1 entry.2 ∈ acts
  records : ∀ m, h.task = some m → Sourced (Delivered w ownKey acts) w m.replica

section
variable {w : Wiring C} {ownKey : C.Key} {acts : List (Act C)} {h h' : Host C} {a : Act C}

theorem Vouched.mono {keys keys' : Nat → C.Key → Prop} {msg : Wire C} (hv : Vouched w keys msg)
    (hk : ∀ i pk, keys i pk → keys' i pk) : Vouched w keys' msg := by
  cases msg with
  | vote ty v nh voter sig =>
    rcases hv with hv | ⟨pk, hkey, hsig⟩
    · exact Or.inl hv
    · exact Or.inr ⟨pk, hk _ _ hkey, hsig⟩
  | _ => trivial

theorem Delivered.grow {msg : Wire C} (hd : Delivered w ownKey acts msg) (a : Act C) :
    Delivered w ownKey (acts ++ [a]) msg := by
  obtain ⟨⟨c, hc⟩, hv⟩ := hd
  refine ⟨⟨c, List.mem_append_left _ hc⟩, hv.mono ?_⟩
  rintro i pk ⟨before, hb, hk⟩
  exact ⟨before, hb.trans (List.prefix_append _ _), hk⟩

theorem keyAfter_append (acts : List (Act C)) (a : Act C) (y : Nat) :
    keyAfter w.myId ownKey (acts ++ [a]) y =
      (a.keyFor y).or (keyAfter w.myId ownKey acts y) := by
  simp [keyAfter]

/-- An act that writes no key, takes nothing into the inbox and leaves the
consensus task alone. -/
theorem Attributed.keep (hp : Attributed w ownKey acts h) (hk : h'.peerKeys = h.peerKeys)
    (hn : ∀ y, a.keyFor y = none) (hi : ∀ entry ∈ h'.inbox, .frame entry.1 entry.2 ∈ acts ++ [a])
    (ht : h'.task = h.task) : Attributed w ownKey (acts ++ [a]) h' := by
  refine ⟨?_, hi, ?_⟩
  · intro y
    rw [hk, keyAfter_append, hn, Option.none_or]
    exact hp.keys y
  · intro m hm
    rw [ht] at hm
    exact (hp.records m hm).mono (fun _ hd => hd.grow a)

theorem greet_task (h : Host C) (c : Nat) (reply : Wire C) :
    (h.greet c reply).task = h.task ∧ (h.greet c reply).inbox = h.inbox := by
  unfold Host.greet
  split
  · exact ⟨rfl, rfl⟩
  · split <;> exact ⟨rfl, rfl⟩

/-- A handshake writes the key of the declared id and no other. -/
theorem greet_keys (h : Host C) (c : Nat) (reply : Wire C) (y : Nat) :
    (h.greet c reply).peerKeys.get? y =
      ((Act.greet c reply).keyFor y).or (h.peerKeys.get? y) := by
  unfold Host.greet Act.keyFor
  dsimp only
  split
  · rename_i hnone
    rw [hnone]
    rfl
  · rename_i peerId pkBytes hsome
    rw [hsome, Option.bind_some]
    dsimp only
    split
    · rename_i hbad
      rw [hbad, ite_self]
      rfl
    · rename_i key hkey
      dsimp only [Host.withConn]
      rw [EntryMap.get?_insert, hkey]
      by_cases hy : y = peerId
      · simp [hy]
      · have hne : ¬ peerId = y := fun he => hy he.symm
        simp [hy, hne]

theorem Attributed.greet (hp : Attributed w ownKey acts h) (c : Nat) (reply : Wire C) :
    Attributed w ownKey (acts ++ [.greet c reply]) (h.greet c reply) := by
  obtain ⟨ht, hi⟩ := greet_task h c reply
  refine ⟨?_, ?_, ?_⟩
  · intro y
    rw [greet_keys, keyAfter_append, hp.keys]
  · intro entry he
    rw [hi] at he
    exact List.mem_append_left _ (hp.inbox entry he)
  · intro m hm
    rw [ht] at hm
    exact (hp.records m hm).mono (fun _ hd => hd.grow _)

/-- A step of the consensus task, on a message that came in a frame or on none. -/
theorem Attributed.task (hp : Attributed w ownKey acts h) {m m' : Machine C}
    {ev : Option (Event C)} (ht : h.task = some m)
    (hs : Machine.Step h.peerKeys.get? w ev m m')
    (hev : ∀ msg, ev = some (.message msg) → ∃ c, .frame c msg ∈ acts)
    (hn : ∀ y, a.keyFor y = none) {inbox : List (Nat × Wire C)}
    (hi : ∀ entry ∈ inbox, entry ∈ h.inbox) :
    Attributed w ownKey (acts ++ [a]) { h with inbox := inbox, task := some m' } := by
  refine ⟨?_, ?_, ?_⟩
  · intro y
    rw [keyAfter_append, hn, Option.none_or]
    exact hp.keys y
  · intro entry he
    exact List.mem_append_left _ (hp.inbox entry (hi entry he))
  · rintro _ ⟨⟩
    apply step_keeps (P := Sourced (Delivered w ownKey (acts ++ [a])) w) _ _ hs (fun _ he => he)
    · exact (hp.records m ht).mono (fun _ hd => hd.grow a)
    · intro r r' hsrc hm
      refine hsrc.move ?_ hm
      intro msg he hv
      obtain ⟨c, hc⟩ := hev msg he
      refine Delivered.grow ⟨⟨c, hc⟩, hv.mono ?_⟩ a
      intro i pk hkey
      exact ⟨acts, List.prefix_rfl, by rw [← hp.keys, hkey]⟩
    · intro r timeout hmax hsrc
      have hmid : Sourced _ w (r.withRs (fun rs => { rs with timeoutIntervalMs := timeout })) :=
        fun y msg hrec => hsrc y msg (by cases hrec <;> constructor <;> assumption)
      exact hmid.enter (Or.inr ⟨hmax, rfl⟩)

section
variable {c : Nat}

theorem act_greet {reply : Wire C} (ha : h.act w n (.greet c reply) = some h') :
    h.conns c = .handshaking ∧ h' = h.greet c reply := by
  unfold Host.act at ha
  dsimp only at ha
  split at ha
  · rename_i hwait
    cases ha
    exact ⟨hwait, rfl⟩
  · cases ha

theorem act_publish (ha : h.act w n (.publish c) = some h') :
    ∃ peerId, h.conns c = .keyed peerId ∧ h' = h.publish c peerId := by
  unfold Host.act at ha
  dsimp only at ha
  split at ha
  · rename_i peerId hkeyed
    cases ha
    exact ⟨peerId, hkeyed, rfl⟩
  · cases ha

theorem act_frame {msg : Wire C} (ha : h.act w n (.frame c msg) = some h') :
    h' = h.forward c msg := by
  unfold Host.act at ha
  dsimp only at ha
  split at ha
  · cases ha
    rfl
  · cases ha

theorem act_readClosed (ha : h.act w n (.readClosed c) = some h') :
    h.conns c = .handshaking ∧ h' = h.withConn c .closed ∨
      ∃ peerId, h.conns c = .live peerId ∧ h' = h.readClosed c peerId := by
  unfold Host.act at ha
  dsimp only at ha
  split at ha
  · rename_i hwait
    cases ha
    exact Or.inl ⟨hwait, rfl⟩
  · rename_i peerId hlive
    cases ha
    exact Or.inr ⟨peerId, hlive, rfl⟩
  · cases ha

theorem act_begin (ha : h.act w n .begin = some h') :
    h' = { h with task := some (.start w n) } := by
  unfold Host.act at ha
  dsimp only at ha
  split at ha
  · cases ha
    rfl
  · cases ha

theorem act_receive (ha : h.act w n .receive = some h') :
    ∃ c msg rest m m', h.inbox = (c, msg) :: rest ∧ h.task = some m ∧
      m.consume h.peerKeys.get? w (.message msg) = some m' ∧
      h' = { h with inbox := rest, task := some m' } := by
  unfold Host.act at ha
  dsimp only at ha
  split at ha
  · cases ha
  · rename_i c msg rest hbox
    obtain ⟨m', hm, rfl⟩ := Option.map_eq_some_iff.mp ha
    obtain ⟨m, ht, hc⟩ := Option.bind_eq_some_iff.mp hm
    exact ⟨c, msg, rest, m, m', hbox, ht, hc, rfl⟩

end

theorem Attributed.act (hp : Attributed w ownKey acts h) (ha : h.act w n a = some h') :
    Attributed w ownKey (acts ++ [a]) h' := by
  have hinbox : ∀ entry ∈ h.inbox, .frame entry.1 entry.2 ∈ acts ++ [a] := by
    intro entry he
    exact List.mem_append_left _ (hp.inbox entry he)
  have hlocal : ∀ ev, (∀ msg, ev ≠ .message msg) → (∀ y, a.keyFor y = none) →
      (h.task.bind (·.consume h.peerKeys.get? w ev)).map (fun m => { h with task := some m }) =
        some h' → Attributed w ownKey (acts ++ [a]) h' := by
    intro ev hev hn ha
    obtain ⟨m', hm, rfl⟩ := Option.map_eq_some_iff.mp ha
    obtain ⟨m, ht, hc⟩ := Option.bind_eq_some_iff.mp hm
    refine hp.task ht (consume_step hc) ?_ hn (fun _ he => he)
    intro msg he
    exact absurd (Option.some.inj he) (hev msg)
  cases a with
  | greet c reply =>
    obtain ⟨_, rfl⟩ := act_greet ha
    exact hp.greet c reply
  | publish c =>
    obtain ⟨peerId, _, rfl⟩ := act_publish ha
    unfold Host.publish
    split <;> exact hp.keep rfl (fun _ => rfl) hinbox rfl
  | frame c msg =>
    cases act_frame ha
    refine hp.keep rfl (fun _ => rfl) ?_ rfl
    intro entry he
    rcases List.mem_append.mp he with he | he
    · exact hinbox entry he
    · cases List.mem_singleton.mp he
      simp
  | readClosed c =>
    rcases act_readClosed ha with ⟨_, rfl⟩ | ⟨peerId, _, rfl⟩
    · exact hp.keep rfl (fun _ => rfl) hinbox rfl
    · exact hp.keep rfl (fun _ => rfl) hinbox rfl
  | begin =>
    cases act_begin ha
    refine ⟨?_, hinbox, ?_⟩
    · intro y
      rw [keyAfter_append]
      exact hp.keys y
    · rintro _ ⟨⟩
      exact Sourced.start
  | receive =>
    obtain ⟨c, msg, rest, m, m', hbox, ht, hc, rfl⟩ := act_receive ha
    have hfirst : .frame c msg ∈ acts := hp.inbox (c, msg) (by simp [hbox])
    refine hp.task ht (consume_step hc) ?_ (fun _ => rfl) (fun entry he => ?_)
    · rintro msg' ⟨⟩
      exact ⟨c, hfirst⟩
    · rw [hbox]
      exact List.mem_cons_of_mem _ he
  | timer view => exact hlocal _ (fun _ he => by cases he) (fun _ => rfl) ha
  | validated k => exact hlocal _ (fun _ he => by cases he) (fun _ => rfl) ha
  | rule ord =>
    obtain ⟨m', hm, rfl⟩ := Option.map_eq_some_iff.mp ha
    obtain ⟨m, ht, hc⟩ := Option.bind_eq_some_iff.mp hm
    exact hp.task ht (advance_step hc) (fun _ he => by cases he) (fun _ => rfl) (fun _ he => he)

theorem run_attributed (hr : (Host.boot w.myId ownKey).run w n acts = some h) :
    Attributed w ownKey acts h := by
  refine follow_invariant (P := Attributed w ownKey) ⟨?_, ?_, ?_⟩
    (fun _ _ _ _ hp ha => hp.act ha) hr
  · intro y
    simp [Host.boot, keyAfter, EntryMap.get?_insert]
  · intro entry he
    cases he
  · intro m hm
    cases hm

end

/-- The act is of a connection whose other end is peer `b`. -/
def Act.isFrom (peer : Nat → Nat) (b : Nat) : Act C → Bool
  | .greet c _ => peer c = b
  | .frame c _ => peer c = b
  | _ => false

/-- The act brings a message that declares the id. -/
def Act.declares (y : Nat) : Act C → Bool
  | .greet _ reply => reply.declared = y
  | .frame _ msg => msg.declared = y
  | _ => false

theorem keyFor_declares {a : Act C} {key : C.Key} (h : a.keyFor y = some key) :
    a.declares y = true ∧ ∃ c reply, a = .greet c reply := by
  cases a with
  | greet c reply =>
    refine ⟨?_, c, reply, rfl⟩
    cases reply with
    | hello nodeId pubkey =>
      unfold Act.keyFor handshake at h
      dsimp only [Option.bind_some] at h
      split at h
      · exact decide_eq_true (by assumption)
      · cases h
    | _ => cases h
  | _ => cases h

theorem keyAfter_filter {keep : Act C → Bool} {acts : List (Act C)}
    (h : ∀ a ∈ acts, keep a = false → a.keyFor y = none) :
    keyAfter myId ownKey (acts.filter keep) y = keyAfter myId ownKey acts y := by
  unfold keyAfter
  generalize (if y = myId then some ownKey else none) = key
  induction acts generalizing key with
  | nil => rfl
  | cons a acts ih =>
    have hrest := fun key => ih (fun x hx => h x (List.mem_cons_of_mem _ hx)) key
    cases hk : keep a with
    | true => simp [hk, hrest]
    | false =>
      have hn := h a (List.mem_cons_self ..) hk
      simp [hk, hn, hrest]

theorem keyAfter_some {acts : List (Act C)} (hy : y ≠ myId)
    (h : (keyAfter myId ownKey acts y).isSome) : ∃ a ∈ acts, (a.keyFor y).isSome := by
  unfold keyAfter at h
  rw [if_neg hy] at h
  induction acts using List.reverseRecOn with
  | nil => cases h
  | append_singleton acts a ih =>
    rw [List.foldl_append, List.foldl_cons, List.foldl_nil] at h
    cases hk : a.keyFor y with
    | some key => exact ⟨a, by simp, by simp [hk]⟩
    | none =>
      rw [hk, Option.none_or] at h
      obtain ⟨x, hx, hs⟩ := ih h
      exact ⟨x, List.mem_append_left _ hx, hs⟩

/-- No Hello of peer `b` declares the id. -/
def GreetsWithout (peer : Nat → Nat) (b y : Nat) (acts : List (Act C)) : Prop :=
  ∀ c reply, .greet c reply ∈ acts → peer c = b → reply.declared ≠ y

/-- No frame of peer `b` declares the id. -/
def FramesWithout (peer : Nat → Nat) (b y : Nat) (acts : List (Act C)) : Prop :=
  ∀ c msg, .frame c msg ∈ acts → peer c = b → msg.declared ≠ y

theorem keyAfter_without {peer : Nat → Nat} {b : Nat} {acts before : List (Act C)}
    (hb : GreetsWithout peer b y acts) (hpre : before <+: acts) :
    keyAfter myId ownKey (before.filter (fun a => !a.isFrom peer b)) y =
      keyAfter myId ownKey before y := by
  apply keyAfter_filter
  intro a ha hfrom
  cases hk : a.keyFor y with
  | none => rfl
  | some key =>
    obtain ⟨hd, c, reply, rfl⟩ := keyFor_declares hk
    have hpeer : peer c = b := by simpa [Act.isFrom] using hfrom
    exact absurd (of_decide_eq_true hd) (hb c reply (hpre.subset ha) hpeer)

/-- A peer acts under the ids it declares. An id that no Hello of a peer `b` declares has
the key it would have without `b`, and the votes recorded under it pass under such a key
whatever frames `b` sends. What is recorded under an id is the node's own or came in a
frame that declares the id: one of another peer, if no frame of `b` declares it. -/
theorem peer_acts_as_declared {w : Wiring C} {n : Nat} {ownKey : C.Key} {acts : List (Act C)}
    {h : Host C} (hr : (Host.boot w.myId ownKey).run w n acts = some h) (peer : Nat → Nat)
    (b y : Nat) :
    (GreetsWithout peer b y acts →
      h.peerKeys.get? y =
        keyAfter w.myId ownKey (acts.filter (fun a => !a.isFrom peer b)) y ∧
      (y ≠ w.myId → (h.peerKeys.get? y).isSome →
        ∃ c reply, .greet c reply ∈ acts ∧ reply.declared = y ∧ peer c ≠ b) ∧
      ∀ m ty v nh sig, h.task = some m → y ≠ w.myId →
        Recorded m.replica y (.vote ty v nh y sig) →
        ∃ before pk, before <+: acts ∧
          keyAfter w.myId ownKey (before.filter (fun a => !a.isFrom peer b)) y = some pk ∧
          verifyVoteSig pk ty v nh sig = true) ∧
    ∀ m msg, h.task = some m → Recorded m.replica y msg →
      Own w m.replica msg ∨
        (Delivered w ownKey acts msg ∧ msg.declared = y ∧
          (FramesWithout peer b y acts → ∃ c, .frame c msg ∈ acts ∧ peer c ≠ b)) := by
  have hp := run_attributed hr
  refine ⟨fun hb => ⟨?_, ?_, ?_⟩, ?_⟩
  · rw [hp.keys, keyAfter_without hb List.prefix_rfl]
  · intro hy hsome
    rw [hp.keys] at hsome
    obtain ⟨a, ha, hs⟩ := keyAfter_some hy hsome
    obtain ⟨key, hk⟩ := Option.isSome_iff_exists.mp hs
    obtain ⟨hd, c, reply, rfl⟩ := keyFor_declares hk
    have hy : reply.declared = y := of_decide_eq_true hd
    exact ⟨c, reply, ha, hy, fun hc => hb c reply ha hc hy⟩
  · intro m ty v nh sig ht hy hrec
    rcases hp.records m ht y _ hrec with hown | hd
    · exact absurd hown.1 hy
    · rcases hd.2 with hme | ⟨pk, ⟨before, hpre, hkey⟩, hsig⟩
      · exact absurd hme hy
      · exact ⟨before, pk, hpre, by rw [keyAfter_without hb hpre, hkey], hsig⟩
  · intro m msg ht hrec
    rcases hp.records m ht y msg hrec with hown | hd
    · exact Or.inl hown
    · have hy : msg.declared = y := by cases hrec <;> rfl
      refine Or.inr ⟨hd, hy, ?_⟩
      intro hb
      obtain ⟨c, hc⟩ := hd.1
      exact ⟨c, hc, fun hpeer => hb c msg hc hpeer hy⟩

/-! Peer 1 is at the other end of connection 0 of node 0, and peer 3 at that of
all the others. It greets as node 1, as node 2 and as node 9, and sends a
NEW-VIEW as node 2. -/
namespace Quartet

def peer (c : Nat) : Nat := if c = 0 then 1 else 3

def keyOf (i : Nat) : crypto.Key := i

def hello (nodeId : Nat) (key : UInt8) : Wire crypto := .hello nodeId (List.replicate 32 key)

def takeover : List (Act crypto) :=
  [.greet 0 (hello 1 1), .publish 0, .greet 1 (hello 1 3), .publish 1,
    .greet 2 (hello 2 3), .publish 2, .greet 3 (hello 9 3), .publish 3, .begin] ++
    List.replicate 10 (.rule .asStored) ++ [.frame 2 (.newView 0 none 2), .receive]

def node0 : Host crypto := .boot 0 (keyOf 0)

theorem takeover_runs : ∃ h m, node0.run (cluster.wiring 0) 4 takeover = some h ∧
    h.task = some m ∧ (m.replica.rs.viewData 0).newViewMsgs.get? 2 = some none ∧
    h.peerKeys.get? 1 = some (keyOf 3) ∧ h.peerKeys.get? 9 = some (keyOf 3) := by
  have hrun : (node0.run (cluster.wiring 0) 4 takeover).any (fun h =>
      h.task.any (fun m => decide ((m.replica.rs.viewData 0).newViewMsgs.get? 2 = some none)) &&
        decide (h.peerKeys.get? 1 = some (keyOf 3) ∧ h.peerKeys.get? 9 = some (keyOf 3))) =
      true := by
    decide +kernel
  obtain ⟨h, hh, hc⟩ := Option.any_eq_true _ _ |>.mp hrun
  obtain ⟨htask, hkeys⟩ := Bool.and_eq_true_iff.mp hc
  obtain ⟨m, hm, hrec⟩ := Option.any_eq_true _ _ |>.mp htask
  exact ⟨h, m, hh, hm, of_decide_eq_true hrec, of_decide_eq_true hkeys⟩

end Quartet

theorem takeover_attributed : ∃ h m, Quartet.node0.run (Quartet.cluster.wiring 0) 4
      Quartet.takeover = some h ∧ h.task = some m ∧
    h.peerKeys.get? 2 = keyAfter 0 (Quartet.keyOf 0)
      (Quartet.takeover.filter (fun a => !a.isFrom Quartet.peer 1)) 2 ∧
    Recorded m.replica 2 (.newView 0 none 2) ∧
    (Own (Quartet.cluster.wiring 0) m.replica (.newView 0 none 2) ∨
      ∃ c, .frame c (.newView 0 none 2) ∈ Quartet.takeover ∧ Quartet.peer c ≠ 1) := by
  obtain ⟨h, m, hrun, htask, hget, _⟩ := Quartet.takeover_runs
  have hrec := Recorded.newView 0 none hget
  have hacts : ∀ a ∈ Quartet.takeover, a.isFrom Quartet.peer 1 = true → a.declares 2 = false := by
    decide
  have hgreets : GreetsWithout Quartet.peer 1 2 Quartet.takeover := by
    intro c reply hmem hpeer
    exact of_decide_eq_false (hacts _ hmem (decide_eq_true hpeer))
  have hframes : FramesWithout Quartet.peer 1 2 Quartet.takeover := by
    intro c msg hmem hpeer
    exact of_decide_eq_false (hacts _ hmem (decide_eq_true hpeer))
  obtain ⟨hkeys, hrecords⟩ := peer_acts_as_declared hrun Quartet.peer 1 2
  exact ⟨h, m, hrun, htask, (hkeys hgreets).1, hrec,
    (hrecords m _ htask hrec).imp_right (fun hd => hd.2.2 hframes)⟩

/-- Peer 3 replaces the key of node 1, adds an entry for an id out of range, and
has a NEW-VIEW recorded as that of node 2. -/
theorem identity_taken : ∃ h m, Quartet.node0.run (Quartet.cluster.wiring 0) 4
      Quartet.takeover = some h ∧ h.task = some m ∧
    keyAfter 0 (Quartet.keyOf 0) (Quartet.takeover.filter (fun a => !a.isFrom Quartet.peer 3)) 1 =
      some (Quartet.keyOf 1) ∧
    h.peerKeys.get? 1 = some (Quartet.keyOf 3) ∧ h.peerKeys.get? 9 = some (Quartet.keyOf 3) ∧
    (∀ a ∈ Quartet.takeover, a.declares 2 = true → a.isFrom Quartet.peer 3 = true) ∧
    Recorded m.replica 2 (.newView 0 none 2) := by
  obtain ⟨h, m, hrun, htask, hget, hone, hnine⟩ := Quartet.takeover_runs
  exact ⟨h, m, hrun, htask, by decide, hone, hnine, by decide, .newView 0 none hget⟩

end ZkStf
