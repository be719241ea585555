import ZkStf.Proofs.Deeds

namespace ZkStf
open ZkStf.Basis
open ZkStf.Basis.Ballots (Phase)
variable {C : Crypto}

/-- What a node notes down for a view it never takes back. -/
structure ViewData.Grows (d d' : ViewData C) : Prop where
  proposal : ∀ x, d.proposal = some x → d'.proposal = some x
  voted : ∀ p, d.voted p = true → d'.voted p = true
  seen : ∀ p, d.seen p = true → d'.seen p = true
  newViews : ∀ i, (d.newViewMsgs.get? i).isSome → (d'.newViewMsgs.get? i).isSome
  votes : ∀ p i, ((d.votes p).get? i).isSome → ((d'.votes p).get? i).isSome
  proposed : d.broadcastProposal = true → d'.broadcastProposal = true
  broadcast : ∀ p, d.broadcast p = true → d'.broadcast p = true

theorem ViewData.Grows.refl (d : ViewData C) : d.Grows d :=
  ⟨fun _ h => h, fun _ h => h, fun _ h => h, fun _ h => h, fun _ _ h => h, id, fun _ h => h⟩

theorem ViewData.Grows.trans {a b c : ViewData C} (hab : a.Grows b) (hbc : b.Grows c) :
    a.Grows c where
  proposal x h := hbc.proposal x (hab.proposal x h)
  voted p h := hbc.voted p (hab.voted p h)
  seen p h := hbc.seen p (hab.seen p h)
  newViews i h := hbc.newViews i (hab.newViews i h)
  votes p i h := hbc.votes p i (hab.votes p i h)
  proposed h := hbc.proposed (hab.proposed h)
  broadcast p h := hbc.broadcast p (hab.broadcast p h)

theorem grows_update {g : Nat → ViewData C} {v : Nat} {d : ViewData C} (h : (g v).Grows d)
    (u : Nat) : (g u).Grows (Function.update g v d u) := by
  rw [Function.update_apply]
  split
  · subst u
    exact h
  · exact .refl _

section
variable {keys : Nat → Option C.Key} {arrives : Wire C → Prop} {expires : Prop} {w : Wiring C}
  {n : Nat} {r r' : Replica C}

theorem castVote_grows (p : Phase) (nh : C.Hash) (r : Replica C) (u : Nat) :
    (r.rs.viewData u).Grows ((castVote w p nh r).rs.viewData u) := by
  rw [castVote_eq]
  apply grows_update
  refine { ViewData.Grows.refl _ with voted := fun q hq => update_true hq, votes := ?_ }
  intro q i hi
  dsimp only
  split
  · by_cases hq : q = p
    · subst q
      rw [Function.update_self]
      exact EntryMap.isSome_insert.mpr (Or.inr hi)
    · rw [Function.update_of_ne hq]
      exact hi
  · exact hi

theorem stageQc_grows (p : Phase) (view : Nat) (qc : QC C) (rs : ReplicaState C) (u : Nat) :
    (rs.viewData u).Grows ((stageQc p view qc rs).viewData u) := by
  rw [stageQc_eq]
  apply grows_update
  exact { ViewData.Grows.refl _ with seen := fun q hq => update_true hq }

theorem stashProposal_grows (view : Nat) (node : Node C) (justify : Option (QC C))
    (rs : ReplicaState C) (u : Nat) :
    (rs.viewData u).Grows ((stashProposal view node justify rs).viewData u) := by
  apply grows_update
  refine { ViewData.Grows.refl _ with proposal := ?_ }
  intro x hx
  dsimp only at hx ⊢
  rw [hx]
  rfl

/-- Whatever a node does, its notes on every view grow. -/
theorem Move.grows (hm : Move keys arrives w r r') (u : Nat) :
    (r.rs.viewData u).Grows (r'.rs.viewData u) := by
  cases hm with
  | stash view node justify => exact stashProposal_grows view node justify r.rs u
  | receive ty p view qc =>
    rw [withRs_rs, receiveQc_eq]
    exact stageQc_grows p view qc r.rs u
  | count ty p view nh voter sig =>
    apply grows_update
    refine { ViewData.Grows.refl _ with votes := ?_ }
    intro q i hi
    by_cases hq : q = p
    · subst q
      dsimp only
      rw [Function.update_self]
      exact EntryMap.isSome_insertNew.mpr (Or.inr hi)
    · dsimp only
      rw [Function.update_of_ne hq]
      exact hi
  | collect view justify sender =>
    apply grows_update
    exact { ViewData.Grows.refl _ with
      newViews := fun i hi => EntryMap.isSome_insertNew.mpr (Or.inr hi) }
  | enter timeout =>
    rw [enterNewView_eq]
    apply grows_update
    refine { ViewData.Grows.refl _ with newViews := ?_ }
    intro i hi
    dsimp only
    split
    · exact EntryMap.isSome_insert.mpr (Or.inr hi)
    · exact hi
  | propose newViews leaf =>
    refine (stashProposal_grows r.rs.view leaf (highQc newViews) r.rs u).trans ?_
    apply grows_update
    exact { ViewData.Grows.refl _ with proposed := fun _ => rfl }
  | skip =>
    apply grows_update
    exact { ViewData.Grows.refl _ with voted := fun q hq => update_true hq }
  | prepare leaf => exact castVote_grows .prepare (nodeHash leaf) r u
  | certify p ord qc =>
    refine ViewData.Grows.trans ?_ (stageQc_grows p r.rs.view qc _ u)
    apply grows_update
    exact { ViewData.Grows.refl _ with broadcast := fun q hq => update_true hq }
  | preCommit qc => exact castVote_grows .preCommit qc.nodeHash (r.withRs (holdPrepare qc)) u
  | commit qc => exact castVote_grows .commit qc.nodeHash (r.withRs (holdLock qc)) u
  | execute decided nh node r' known path found next valid applied =>
    rw [(applyNode_frame applied).1]
    exact .refl _
  | _ => exact .refl _

theorem Move.view_mono (hm : Move keys arrives w r r') : r.rs.view ≤ r'.rs.view := by
  rcases hm.casts with hq | ⟨p, nh, held, hc, _, rfl⟩
  · exact hq.view
  · rw [castVote_eq]
    cases hc <;> exact Nat.le_refl _

end

/-- What a node does at most once per view. -/
inductive Slot
  | proposal (view : Nat)
  | announcement (ty : MsgType) (view : Nat)
  | vote (ty : MsgType) (view : Nat)
  | newView (view : Nat)
  | timer (view : Nat)
deriving DecidableEq

def Effect.slot : Effect C → Option Slot
  | .broadcast (.proposal v _ _ _) => some (.proposal v)
  | .broadcast (.phaseQc ty v _ _) => some (.announcement ty v)
  | .sendTo _ (.vote ty v _ _ _) => some (.vote ty v)
  | .sendTo _ (.newView v _ _) => some (.newView v)
  | .armTimer v _ => some (.timer v)
  | _ => none

def Replica.slots (r : Replica C) : List Slot := r.effects.filterMap Effect.slot

/-- The mark by which a node knows that the slot is taken. -/
def Marked (r : Replica C) : Slot → Prop
  | .proposal v => (r.rs.viewData v).broadcastProposal = true
  | .announcement ty v => ∃ p, ty = announcedBy p ∧ (r.rs.viewData v).broadcast p = true
  | .vote ty v => ∃ p, ty = msgTypeOf p ∧ (r.rs.viewData v).voted p = true
  | .newView v => v < r.rs.view
  | .timer v => v ≤ r.rs.view

/-- The effect goes out in the node's own name, for a view it has reached, and to
the one node that is to have it. -/
def Effect.Addressed (w : Wiring C) (r : Replica C) : Effect C → Prop
  | .broadcast (.proposal v _ _ sender) =>
    sender = w.myId ∧ r.rs.leaderFor v = w.myId ∧ v ≤ r.rs.view
  | .broadcast (.phaseQc ty v _ sender) =>
    sender = w.myId ∧ r.rs.leaderFor v = w.myId ∧ v ≤ r.rs.view ∧ ∃ p, ty = announcedBy p
  | .sendTo peer (.vote ty v nh voter sig) =>
    voter = w.myId ∧ peer = r.rs.leaderFor v ∧ peer ≠ w.myId ∧ v ≤ r.rs.view ∧
      sig = signVote w.sk ty v nh ∧ r.Signed (voteDigest ty v nh)
  | .sendTo peer (.newView v _ sender) =>
    sender = w.myId ∧ peer = r.rs.leaderFor (v + 1) ∧ peer ≠ w.myId ∧ v < r.rs.view
  | .broadcast _ => False
  | .sendTo _ _ => False
  | .armTimer v _ => v ≤ r.rs.view
  | _ => True

section
variable {keys : Nat → Option C.Key} {arrives : Wire C → Prop} {expires : Prop} {w : Wiring C}
  {n : Nat} {r r' : Replica C}

theorem announcedBy_inj {p q : Phase} (h : announcedBy p = announcedBy q) : p = q := by
  cases p <;> cases q <;> cases h <;> rfl

theorem Move.marked (hm : Move keys arrives w r r') {s : Slot} (h : Marked r s) : Marked r' s := by
  cases s with
  | proposal v => exact (hm.grows v).proposed h
  | announcement ty v => exact h.imp fun p hp => hp.imp_right ((hm.grows v).broadcast p)
  | vote ty v => exact h.imp fun p hp => hp.imp_right ((hm.grows v).voted p)
  | newView v => exact Nat.lt_of_lt_of_le h hm.view_mono
  | timer v => exact Nat.le_trans h hm.view_mono

/-- The slots a node takes with `new` further effects: free ones, each once, and
marked from then on. -/
def Takes (r r' : Replica C) (new : List (Effect C)) : Prop :=
  r'.effects = r.effects ++ new ∧ (new.filterMap Effect.slot).Nodup ∧
    ∀ s ∈ new.filterMap Effect.slot, ¬ Marked r s ∧ Marked r' s

theorem Takes.nothing {new : List (Effect C)} (he : r'.effects = r.effects ++ new)
    (hn : new.filterMap Effect.slot = []) : Takes r r' new := by
  refine ⟨he, ?_, ?_⟩
  · rw [hn]
    exact List.nodup_nil
  · rw [hn]
    simp

theorem Takes.one {new : List (Effect C)} {s : Slot} (he : r'.effects = r.effects ++ new)
    (hn : new.filterMap Effect.slot = [s]) (hfree : ¬ Marked r s) (hmark : Marked r' s) :
    Takes r r' new := by
  refine ⟨he, ?_, ?_⟩
  · rw [hn]
    exact List.nodup_singleton s
  · rw [hn]
    simpa using ⟨hfree, hmark⟩

theorem castVote_takes {p : Phase} {nh : C.Hash} (held : ReplicaState C)
    (hview : held.view = r.rs.view)
    (honce : (r.rs.viewData r.rs.view).voted p = false) :
    ∃ new, Takes r (castVote w p nh { r with rs := held }) new := by
  have hmark := (castVote_proceeds (w := w) p nh { r with rs := held }).2.2
  have heff := congrArg Replica.effects (castVote_eq w p nh { r with rs := held })
  dsimp only at hmark heff
  rw [hview] at hmark heff
  by_cases hl : held.leaderFor r.rs.view = w.myId
  · rw [if_pos hl] at heff
    exact ⟨_, .nothing heff rfl⟩
  · rw [if_neg hl] at heff
    refine ⟨_, .one heff rfl ?_ ⟨p, rfl, hmark⟩⟩
    rintro ⟨q, hq, hvoted⟩
    cases msgTypeOf_inj hq
    simp [honce] at hvoted

/-- Entering the next view takes its timer and the NEW-VIEW of the old one. -/
theorem enter_takes (timeout : Nat) :
    ∃ new, Takes r (enterNewView w (r.rs.view + 1)
      (r.withRs (fun rs => { rs with timeoutIntervalMs := timeout }))) new := by
  have heff := congrArg Replica.effects (enterNewView_eq w (r.rs.view + 1)
    (r.withRs (fun rs => { rs with timeoutIntervalMs := timeout })))
  refine ⟨_, heff, ?_⟩
  split
  · simp [Effect.slot, Marked]
  · simp [Effect.slot, Marked]

theorem Deed.takes (hd : Deed keys arrives expires w r r') : ∃ new, Takes r r' new := by
  have hsilent : r'.effects = r.effects → ∃ new, Takes r r' new :=
    fun he => ⟨[], .nothing (by simp [he]) rfl⟩
  have hann := hd.announced
  have hmarks : ∀ {s}, Marked r s → Marked r' s := fun h => hd.move.marked h
  cases hd.move with
  | enter timeout => exact enter_takes timeout
  | propose newViews leaf leader once =>
    refine ⟨_, .one rfl rfl ?_ ?_⟩
    · simpa [Marked] using once
    · exact sendProposal_marks leaf (highQc newViews)
  | prepare leaf high proposal once => exact castVote_takes r.rs rfl once
  | certify p ord qc leader formed =>
    refine ⟨_, .one rfl rfl ?_ ⟨p, rfl, ?_⟩⟩
    · rintro ⟨q, hq, hdone⟩
      cases announcedBy_inj hq
      rw [hann p qc rfl] at hdone
      cases hdone
    · rw [certify_eq]
      simp [vdMut_viewData]
  | preCommit qc seen once => exact castVote_takes (holdPrepare qc r.rs) rfl once
  | commit qc seen once => exact castVote_takes (holdLock qc r.rs) rfl once
  | execute decided nh node r' known path found next valid applied =>
    exact ⟨_, .nothing (applyNode_frame applied).2.2 rfl⟩
  | kick => exact ⟨_, .nothing rfl rfl⟩
  | _ => exact hsilent rfl

/-- Every slot taken is taken once, and marked. -/
structure Tidy (r : Replica C) : Prop where
  once : r.slots.Nodup
  marked : ∀ s ∈ r.slots, Marked r s

theorem Tidy.takes {new : List (Effect C)} (h : Tidy r) (ht : Takes r r' new)
    (hm : Move keys arrives w r r') : Tidy r' := by
  obtain ⟨heff, hnodup, hnew⟩ := ht
  have hslots : r'.slots = r.slots ++ new.filterMap Effect.slot := by
    rw [Replica.slots, heff, List.filterMap_append]
    rfl
  refine ⟨?_, ?_⟩
  · rw [hslots]
    refine h.once.append hnodup ?_
    intro s hold hs
    exact (hnew s hs).1 (h.marked s hold)
  · intro s hs
    rw [hslots] at hs
    rcases List.mem_append.mp hs with hs | hs
    · exact hm.marked (h.marked s hs)
    · exact (hnew s hs).2

theorem Tidy.deed (h : Tidy r) (hd : Deed keys arrives expires w r r') : Tidy r' := by
  obtain ⟨new, ht⟩ := hd.takes
  exact h.takes ht hd.move

/-- The start of the protocol is the entry into view 1. -/
theorem start_move : Move keys arrives w (bootReplica w n) (startProtocol w (bootReplica w n)) :=
  .enter w.timeoutBaseMs

theorem Tidy.start : Tidy (startProtocol w (bootReplica w n)) := by
  have hboot : Tidy (bootReplica w n) := ⟨List.nodup_nil, by simp [Replica.slots, bootReplica]⟩
  obtain ⟨new, ht⟩ := enter_takes (w := w) (r := bootReplica w n) w.timeoutBaseMs
  have hm : Move (fun _ => none) (fun _ => True) w (bootReplica w n) _ := start_move
  exact hboot.takes ht hm

theorem Effect.Addressed.move {e : Effect C} (he : e.Addressed w r)
    (hm : Move keys arrives w r r') : e.Addressed w r' := by
  have hview := hm.view_mono
  cases e with
  | broadcast msg =>
    cases msg <;> simp only [Effect.Addressed, hm.leaderFor] at he ⊢
    · exact ⟨he.1, he.2.1, he.2.2.trans hview⟩
    · exact ⟨he.1, he.2.1, he.2.2.1.trans hview, he.2.2.2⟩
  | sendTo peer msg =>
    cases msg <;> simp only [Effect.Addressed, hm.leaderFor] at he ⊢
    · obtain ⟨hvoter, hpeer, hne, hv, hsig, hsigned⟩ := he
      exact ⟨hvoter, hpeer, hne, hv.trans hview, hsig, hm.signed_grow hsigned⟩
    · exact ⟨he.1, he.2.1, he.2.2.1, he.2.2.2.trans_le hview⟩
  | armTimer v ms => exact Nat.le_trans he hview
  | submit => trivial
  | sign => trivial
  | executed => trivial

theorem castVote_addressed {p : Phase} {nh : C.Hash} (held : ReplicaState C) {e : Effect C}
    (he : e ∈ (castVote w p nh { r with rs := held }).effects) :
    e ∈ r.effects ∨ e.Addressed w (castVote w p nh { r with rs := held }) := by
  have hsigned : (castVote w p nh { r with rs := held }).Signed
      (voteDigest (msgTypeOf p) held.view nh) := castVote_signed.mpr (Or.inr rfl)
  rw [castVote_eq] at he
  rcases List.mem_append.mp he with he | he
  · exact Or.inl he
  rcases List.mem_cons.mp he with rfl | he
  · exact Or.inr trivial
  split at he
  · cases he
  · rename_i hl
    cases List.mem_singleton.mp he
    refine Or.inr ⟨rfl, ?_, hl, ?_, rfl, hsigned⟩
    · rw [castVote_eq]
      rfl
    · rw [castVote_eq]
      exact Nat.le_refl _

theorem Move.addressed (hm : Move keys arrives w r r') {e : Effect C} (he : e ∈ r'.effects) :
    e ∈ r.effects ∨ e.Addressed w r' := by
  cases hm with
  | enter timeout =>
    have hview := enterNewView_view w (r.rs.view + 1)
      (r.withRs (fun rs => { rs with timeoutIntervalMs := timeout }))
    rw [enterNewView_eq] at he
    rcases List.mem_append.mp he with he | he
    · exact Or.inl he
    rcases List.mem_append.mp he with he | he
    · split at he
      · cases he
      · rename_i hl
        cases List.mem_singleton.mp he
        refine Or.inr ⟨rfl, ?_, hl, ?_⟩
        · rw [enterNewView_eq]
          rfl
        · rw [hview]
          exact Nat.lt_succ_self _
    · cases List.mem_singleton.mp he
      refine Or.inr ?_
      simp only [Effect.Addressed, hview, le_refl]
  | propose newViews leaf leader =>
    rcases List.mem_append.mp he with he | he
    · exact Or.inl he
    · cases List.mem_singleton.mp he
      exact Or.inr ⟨rfl, leader, Nat.le_refl _⟩
  | prepare => exact castVote_addressed r.rs he
  | preCommit qc => exact castVote_addressed (holdPrepare qc r.rs) he
  | commit qc => exact castVote_addressed (holdLock qc r.rs) he
  | certify p ord qc leader formed =>
    rcases List.mem_append.mp he with he | he
    · exact Or.inl he
    · cases List.mem_singleton.mp he
      refine Or.inr ⟨rfl, ?_, ?_, p, rfl⟩
      · rw [certify_eq]
        exact leader
      · rw [certify_eq]
        exact Nat.le_refl _
  | execute decided nh node r' known path found next valid applied =>
    rw [(applyNode_frame applied).2.2] at he
    rcases List.mem_append.mp he with he | he
    · exact Or.inl he
    · cases List.mem_singleton.mp he
      exact Or.inr trivial
  | kick =>
    rcases List.mem_append.mp he with he | he
    · exact Or.inl he
    · cases List.mem_singleton.mp he
      exact Or.inr trivial
  | _ => exact Or.inl he

theorem reach_tidy {m : Machine C} (hr : Machine.Reach w n m) : Tidy m.replica :=
  reach_deeds .start (fun _ _ _ h hd => Tidy.deed h hd) hr

theorem reach_addressed {m : Machine C} (hr : Machine.Reach w n m) :
    ∀ e ∈ m.replica.effects, e.Addressed w m.replica := by
  apply reach_invariant (P := fun r => ∀ e ∈ r.effects, e.Addressed w r) _ _ hr
  · intro e he
    have hm : Move (fun _ => none) (fun _ => True) w (bootReplica w n) _ := start_move
    rcases hm.addressed he with he | he
    · cases he
    · exact he
  · intro keys r r' h hm e he
    rcases hm.addressed he with he | he
    · exact (h e he).move hm
    · exact he

end

/-- Whatever reaches a node, it sends at most one proposal, one announcement of
each certificate, one vote of each phase and one NEW-VIEW per view, and arms one
timer. Each goes out in its own name and to the node that is to have it, and none
is for a view that the node has not reached. -/
theorem sends_once_per_view {w : Wiring C} {n : Nat} {m : Machine C}
    (hr : Machine.Reach w n m) :
    m.replica.slots.Nodup ∧ ∀ e ∈ m.replica.effects, e.Addressed w m.replica :=
  ⟨(reach_tidy hr).once, reach_addressed hr⟩

/-- Node 0 has led view 1 to its decision. -/
theorem quartet_sends_once : ∃ m : Machine Quartet.crypto,
    Machine.Reach (Quartet.cluster.wiring 0) 4 m ∧
      m.replica.slots = [.timer 1, .proposal 1, .announcement .preCommit 1,
        .announcement .commit 1, .announcement .decide 1, .newView 1, .timer 2] ∧
      m.replica.slots.Nodup ∧
      ∀ e ∈ m.replica.effects, e.Addressed (Quartet.cluster.wiring 0) m.replica := by
  have hplay : (System.play Quartet.cluster Quartet.cluster.Authentic Quartet.schedule
      (System.start Quartet.cluster)).any (fun s => decide
        ((s 0).replica.slots = [.timer 1, .proposal 1, .announcement .preCommit 1,
          .announcement .commit 1, .announcement .decide 1, .newView 1, .timer 2])) = true := by
    decide +kernel
  obtain ⟨s, hr, hc⟩ := play_exists hplay
  exact ⟨s 0, hr.machine 0, of_decide_eq_true hc, sends_once_per_view (hr.machine 0)⟩

def Effect.alarm : Effect C → Option (Nat × Nat)
  | .armTimer v ms => some (v, ms)
  | _ => none

/-- The timers a node has armed, with their intervals. -/
def Replica.alarms (r : Replica C) : List (Nat × Nat) := r.effects.filterMap Effect.alarm

/-- The interval after `k` timeouts in a row. -/
def backoff (base k : Nat) : Nat := min (base * 2 ^ k) (2 ^ 64 - 1)

theorem backoff_succ (base k : Nat) :
    min (backoff base k * 2) (2 ^ 64 - 1) = backoff base (k + 1) := by
  have hdouble : base * 2 ^ (k + 1) = base * 2 ^ k * 2 := by ring
  unfold backoff
  rw [hdouble]
  omega

theorem backoff_zero {base : Nat} (h : base < 2 ^ 64) : backoff base 0 = base := by
  unfold backoff
  omega

section
variable {keys : Nat → Option C.Key} {arrives : Wire C → Prop} {expires : Prop} {w : Wiring C}
  {n : Nat} {r r' : Replica C}

theorem Move.view_cases (hm : Move keys arrives w r r') : r'.rs.view = r.rs.view ∨
    ∃ timeout, r' = enterNewView w (r.rs.view + 1)
      (r.withRs (fun rs => { rs with timeoutIntervalMs := timeout })) := by
  cases hm with
  | enter timeout => exact Or.inr ⟨timeout, rfl⟩
  | receive ty p view qc => left; rw [withRs_rs, receiveQc_eq, stageQc_eq]; rfl
  | prepare => left; rw [castVote_eq]; rfl
  | preCommit => left; rw [castVote_eq]; rfl
  | commit => left; rw [castVote_eq]; rfl
  | certify p ord qc => left; rw [certify_eq]; rfl
  | execute decided nh node r' known path found next valid applied =>
    left
    rw [(applyNode_frame applied).1]
  | _ => exact Or.inl rfl

/-- Timers are armed for the views a node enters. -/
theorem Deed.alarms (hd : Deed keys arrives expires w r r') (hv : r'.rs.view = r.rs.view) :
    r'.alarms = r.alarms := by
  obtain ⟨new, heff, _, hnew⟩ := hd.takes
  have hnone : new.filterMap Effect.alarm = [] := by
    apply List.filterMap_eq_nil_iff.mpr
    intro e he
    cases e with
    | armTimer v ms =>
      obtain ⟨hfree, hmark⟩ := hnew (.timer v) (List.mem_filterMap.mpr ⟨_, he, rfl⟩)
      rw [Marked, hv] at hmark
      exact absurd hmark hfree
    | _ => rfl
  rw [Replica.alarms, heff, List.filterMap_append, hnone, List.append_nil]
  rfl

theorem enter_alarms (v : Nat) (r : Replica C) :
    (enterNewView w v r).alarms = r.alarms ++ [(v, r.rs.timeoutIntervalMs)] := by
  rw [enterNewView_eq]
  simp only [Replica.alarms, List.filterMap_append]
  split <;> rfl

theorem deeds_pace (hd : Deeds keys arrives expires w r r') (hv : r'.rs.view = r.rs.view) :
    r'.alarms = r.alarms ∧ r'.rs.timeoutIntervalMs = r.rs.timeoutIntervalMs := by
  have hmono : ∀ {a b : Replica C}, Deeds keys arrives expires w a b → a.rs.view ≤ b.rs.view := by
    intro a b hd
    induction hd with
    | refl => exact Nat.le_refl _
    | tail _ hd ih => exact ih.trans hd.move.view_mono
  induction hd with
  | refl => exact ⟨rfl, rfl⟩
  | @tail mid r' hds hd ih =>
    have hlow := hmono hds
    have hhigh := hd.move.view_mono
    have hsame : r'.rs.view = mid.rs.view := by omega
    obtain ⟨halarms, hinterval⟩ := ih (by omega)
    exact ⟨(hd.alarms hsame).trans halarms, (hd.paced hsame).trans hinterval⟩

/-- What a node does when it leaves its view: it arms the timer of the next one, at
the base interval if the DECIDE of the view was seen and at the doubled one if not. -/
structure MovesOn (w : Wiring C) (ev : Option (Event C)) (r r' : Replica C) : Prop where
  view : r'.rs.view = r.rs.view + 1
  interval : r'.rs.timeoutIntervalMs = if (r.rs.viewData r.rs.view).seen .commit
    then w.timeoutBaseMs else min (r.rs.timeoutIntervalMs * 2) (2 ^ 64 - 1)
  alarms : r'.alarms = r.alarms ++ [(r.rs.view + 1, r'.rs.timeoutIntervalMs)]
  cause : (ev = some (.timer r.rs.view) ∧ (r.rs.viewData r.rs.view).seen .commit = false) ∨
    (ev = none ∧ (r.rs.viewData r.rs.view).seen .commit = true)

theorem timer_leaves (h : handleTimer w r.rs.view r = .ok r') (hw : ¬ Wraps r r')
    (hv : r'.rs.view ≠ r.rs.view) : MovesOn w (some (.timer r.rs.view)) r r' := by
  unfold handleTimer at h
  rw [if_neg (by simp)] at h
  split at h
  · cases h
    exact absurd rfl hv
  rename_i hseen
  simp only [vd_eq, Bool.not_eq_true] at hseen
  split at h
  · cases h
  rename_i next hnext
  cases h
  rcases add_one_cases hnext with rfl | ⟨_, hmax, rfl⟩
  · refine ⟨enterNewView_view .., ?_, ?_, Or.inl ⟨rfl, hseen⟩⟩
    · rw [enterNewView_eq, hseen]
      rfl
    · rw [enter_alarms, enterNewView_eq]
      rfl
  · exact absurd ⟨hmax, enterNewView_view ..⟩ hw

theorem replica_decide_leaves (h : replicaDecide w r = .ok r') (hw : ¬ Wraps r r')
    (hv : r'.rs.view ≠ r.rs.view) : MovesOn w none r r' := by
  rcases replica_decide_cases h hw with ⟨rfl, _⟩ | ⟨qc, mid, hseen, _, _, hchores, hview, rfl⟩
  · exact absurd rfl hv
  have hdeeds : Deeds (fun _ => none) (fun _ => True) True w _ mid := chores_deeds hchores
  refine ⟨enterNewView_view .., ?_, ?_, Or.inr ⟨rfl, hseen⟩⟩
  · rw [enterNewView_eq, hseen]
    rfl
  · rw [enter_alarms, enterNewView_eq]
    exact congrArg (· ++ _) (deeds_pace hdeeds hview).1

/-- A step leaves the timers alone or leaves the view. -/
theorem step_pace {ev : Option (Event C)} {m m' : Machine C} (h : Machine.Step keys w ev m m')
    (hw : ¬ Wraps m.replica m'.replica) :
    (m'.replica.rs.view = m.replica.rs.view ∧ m'.replica.alarms = m.replica.alarms ∧
      m'.replica.rs.timeoutIntervalMs = m.replica.rs.timeoutIntervalMs) ∨
    MovesOn w ev m.replica m'.replica := by
  by_cases hv : m'.replica.rs.view = m.replica.rs.view
  · have hdeeds : Deeds keys (fun _ => True) True w _ _ :=
      step_deeds h hw (fun _ _ => trivial) (fun _ => trivial)
    exact Or.inl ⟨hv, deeds_pace hdeeds hv⟩
  right
  cases h with
  | event ev r r' running ran =>
    have hcases : Turn keys (fun _ => True) w r r' ∨ _ := event_cases ev ran hw (by simp)
    rcases hcases with hturn | ⟨timeout, rfl, _⟩
    · exact absurd hturn.view hv
    · exact timer_leaves ran hw hv
  | rule ord rule rest r r' ran =>
    by_cases hne : rule = .replicaDecide
    · subst rule
      exact replica_decide_leaves ran hw hv
    · have hturn : Turn keys (fun _ => True) w r r' := rule_turn rule ran hne
      exact absurd hturn.view hv

end

/-- The runs of a node below `u64::MAX`, with the views it has left so far: whether
the DECIDE of each was seen by then. -/
inductive Machine.Logged (w : Wiring C) (n : Nat) : List Bool → Machine C → Prop
  | start : Logged w n [] (.start w n)
  | stay {left : List Bool} {m m' : Machine C} (keys : Nat → Option C.Key)
      (ev : Option (Event C)) : Logged w n left m → Machine.Step keys w ev m m' →
      m'.replica.rs.view = m.replica.rs.view → Logged w n left m'
  | leave {left : List Bool} {m m' : Machine C} (keys : Nat → Option C.Key)
      (ev : Option (Event C)) : Logged w n left m → Machine.Step keys w ev m m' →
      m'.replica.rs.view = m.replica.rs.view + 1 →
      Logged w n (left ++ [(m.replica.rs.viewData m.replica.rs.view).seen .commit]) m'

/-- How many views were left undecided since the last decided one. -/
def streak (left : List Bool) : Nat := (left.reverse.takeWhile (! ·)).length

@[simp] theorem streak_decided (left : List Bool) : streak (left ++ [true]) = 0 := by
  simp [streak]

@[simp] theorem streak_undecided (left : List Bool) :
    streak (left ++ [false]) = streak left + 1 := by
  simp [streak]

/-- The timers of a node that has left these views: one for each view so far, at the
interval that the undecided views right before it make. -/
structure Paced (base : Nat) (left : List Bool) (r : Replica C) : Prop where
  view : r.rs.view = left.length + 1
  alarms : r.alarms = (List.range r.rs.view).map (fun k =>
    (k + 1, backoff base (streak (left.take k))))
  interval : r.rs.timeoutIntervalMs = backoff base (streak left)

section
variable {w : Wiring C} {n : Nat} {r r' : Replica C} {left : List Bool} {m : Machine C}

theorem Paced.start (hsmall : w.timeoutBaseMs < 2 ^ 64) :
    Paced w.timeoutBaseMs [] (startProtocol w (bootReplica w n)) := by
  unfold startProtocol
  refine ⟨enterNewView_view .., ?_, ?_⟩
  · rw [enter_alarms, enterNewView_view]
    change [(1, w.timeoutBaseMs)] = [(1, backoff w.timeoutBaseMs 0)]
    rw [backoff_zero hsmall]
  · rw [enterNewView_eq]
    exact (backoff_zero hsmall).symm

theorem Paced.leave {ev : Option (Event C)} (hsmall : w.timeoutBaseMs < 2 ^ 64)
    (h : Paced w.timeoutBaseMs left r) (hl : MovesOn w ev r r') :
    Paced w.timeoutBaseMs (left ++ [(r.rs.viewData r.rs.view).seen .commit]) r' := by
  have hinterval : r'.rs.timeoutIntervalMs = backoff w.timeoutBaseMs
      (streak (left ++ [(r.rs.viewData r.rs.view).seen .commit])) := by
    rw [hl.interval]
    cases (r.rs.viewData r.rs.view).seen .commit with
    | true => rw [if_pos rfl, streak_decided, backoff_zero hsmall]
    | false => rw [if_neg (by simp), streak_undecided, h.interval, backoff_succ]
  refine ⟨?_, ?_, hinterval⟩
  · rw [hl.view, h.view]
    simp
  · rw [hl.alarms, h.alarms, hl.view, List.range_succ, List.map_append, hinterval]
    congr 1
    · apply List.map_congr_left
      intro k hk
      have hlt := List.mem_range.mp hk
      rw [List.take_append_of_le_length (by have := h.view; omega)]
    · have hall : (left ++ [(r.rs.viewData r.rs.view).seen .commit]).take r.rs.view =
          left ++ [(r.rs.viewData r.rs.view).seen .commit] :=
        List.take_of_length_le (by simp [h.view])
      rw [List.map_singleton, hall]

/-- A step that does not lower the view does not wrap it. -/
theorem not_wraps (h : r.rs.view ≤ r'.rs.view) : ¬ Wraps r r' := by
  rintro ⟨hmax, hzero⟩
  omega

theorem reach_logged (hr : Machine.Reach w n m) : ∃ left, Machine.Logged w n left m := by
  induction hr with
  | start => exact ⟨[], .start⟩
  | step keys ev _ hstep hw ih =>
    obtain ⟨left, hlog⟩ := ih
    rcases step_pace hstep hw with ⟨hv, _⟩ | hon
    · exact ⟨left, hlog.stay keys ev hstep hv⟩
    · exact ⟨_, hlog.leave keys ev hstep hon.view⟩

theorem logged_paced (hsmall : w.timeoutBaseMs < 2 ^ 64) (hr : Machine.Logged w n left m) :
    Paced w.timeoutBaseMs left m.replica := by
  induction hr with
  | start => exact .start hsmall
  | stay keys ev _ hstep hv ih =>
    rcases step_pace hstep (not_wraps hv.ge) with ⟨_, halarms, hinterval⟩ | hon
    · exact ⟨hv.trans ih.view, by rw [halarms, hv]; exact ih.alarms, hinterval.trans ih.interval⟩
    · exact absurd (hv.symm.trans hon.view) (by omega)
  | leave keys ev _ hstep hv ih =>
    rcases step_pace hstep (not_wraps (by omega)) with ⟨hsame, _⟩ | hon
    · omega
    · exact ih.leave hsmall hon

end

/-- The pace of a node's timers: view after view one is armed, at the base interval
doubled for every view left undecided since the last decided one, and no further
than 64 bits go. A view is left by its own timer where its DECIDE was not seen, and
in a pass where it was. -/
theorem timers_back_off {w : Wiring C} {n : Nat} (hbase : w.timeoutBaseMs < 2 ^ 64)
    {m : Machine C} (hr : Machine.Reach w n m) :
    (∃ left, Machine.Logged w n left m) ∧
      (∀ left, Machine.Logged w n left m → Paced w.timeoutBaseMs left m.replica) ∧
      ∀ keys ev m', Machine.Step keys w ev m m' → ¬ Wraps m.replica m'.replica →
        m'.replica.rs.view ≠ m.replica.rs.view → MovesOn w ev m.replica m'.replica := by
  refine ⟨reach_logged hr, fun left hlog => logged_paced hbase hlog, ?_⟩
  intro keys ev m' hstep hw hv
  exact (step_pace hstep hw).resolve_left (fun hsame => hv hsame.1)

/-- Node 1 decides view 1 and leaves views 2 and 3 by timeout. -/
theorem quartet_backs_off : ∃ (m : Machine Quartet.crypto) (left : List Bool),
    Machine.Logged (Quartet.cluster.wiring 1) 4 left m ∧
      m.replica.alarms = [(1, 1000), (2, 1000), (3, 2000), (4, 4000)] ∧
      Paced 1000 left m.replica := by
  have hplay : (System.play Quartet.cluster Quartet.cluster.Authentic
      (Quartet.schedule ++ [(1, some (.timer 2)), (1, some (.timer 3))])
      (System.start Quartet.cluster)).any (fun s => decide
        ((s 1).replica.alarms = [(1, 1000), (2, 1000), (3, 2000), (4, 4000)])) = true := by
    decide +kernel
  obtain ⟨s, hr, hc⟩ := play_exists hplay
  obtain ⟨⟨left, hlog⟩, hpaced, _⟩ := timers_back_off (by decide) (hr.machine 1)
  exact ⟨s 1, left, hlog, of_decide_eq_true hc, hpaced left hlog⟩

end ZkStf
