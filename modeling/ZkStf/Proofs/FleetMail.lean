import ZkStf.Basis.Counting
import ZkStf.Proofs.CalmOrder
import ZkStf.Proofs.Fleet
import ZkStf.Proofs.Outbox

namespace ZkStf
open ZkStf.Basis
variable {C : Crypto}

section
variable [DecidableEq C.Sig]

/-- The copies of a message that have come to a node. -/
def Fleet.arrived (F : Fleet C) (i : Nat) (msg : Wire C) : Nat :=
  ((F.taken i).filterMap Event.wire).count msg + ((F.hosts i).inbox.map Prod.snd).count msg

/-- The copies of a message on the connections from its sender to a node. -/
def Fleet.onWires (M : Mesh C) (F : Fleet C) (i : Nat) (msg : Wire C) : Nat :=
  ∑ c ∈ Finset.range M.links.length,
    if M.peer c msg.declared = some i then (F.wires msg.declared c).count msg else 0

/-- The copies of a message that its sender has yet to put on a connection. -/
def Fleet.unsent (F : Fleet C) (i : Nat) (msg : Wire C) : Nat :=
  ((F.spawned msg.declared).filterMap (Effect.letterTo i)).count msg

/-- The copies of a message that its sender has made for a node. -/
def Fleet.written (F : Fleet C) (i : Nat) (msg : Wire C) : Nat :=
  ((F.hosts msg.declared).effects.filterMap (Effect.letterTo i)).count msg

end

section
variable {quiet : Prop} {M : Mesh C} {F F' : Fleet C} {i j : Nat} {msg : Wire C}

theorem Effect.Addressed.declared {w : Wiring C} {r : Replica C} {e : Effect C}
    (h : e.Addressed w r) (hl : e.letterTo i = some msg) : msg.declared = w.myId := by
  rcases letterTo_cases hl with rfl | rfl
  · cases msg with
    | proposal => exact h.1
    | phaseQc => exact h.1
    | _ => exact h.elim
  · cases msg with
    | vote => exact h.1
    | newView => exact h.1
    | _ => exact h.elim

/-- A node that has not begun has done nothing yet. -/
theorem Fleet.effects_cases (M : Mesh C) (F : Fleet C) (j : Nat) :
    (F.hosts j).effects = [] ∨ (F.hosts j).effects = (F.system M j).replica.effects := by
  cases htask : (F.hosts j).task with
  | none => exact Or.inl (by simp [Host.effects, htask])
  | some m => exact Or.inr (by simp [Host.effects, Fleet.system, htask])

/-- What is on a connection was put there in the name of the node that wrote it. -/
theorem Fleet.Refines.declared (h : F.Refines M) {c : Nat} (hm : msg ∈ F.wires j c) :
    msg.declared = j := by
  obtain ⟨_, e, _, _, he, hl⟩ := h.wires j c msg hm
  exact (reach_addressed (h.reach.machine j) e he).declared hl

def Wire.slot : Wire C → Option Slot
  | .hello _ _ => none
  | .proposal v _ _ _ => some (.proposal v)
  | .phaseQc ty v _ _ => some (.announcement ty v)
  | .vote ty v _ _ _ => some (.vote ty v)
  | .newView v _ _ => some (.newView v)

theorem Effect.Addressed.slot {w : Wiring C} {r : Replica C} {e : Effect C}
    (h : e.Addressed w r) (hl : e.letterTo i = some msg) :
    e.slot = msg.slot ∧ msg.slot.isSome := by
  rcases letterTo_cases hl with rfl | rfl
  · cases msg with
    | proposal => exact ⟨rfl, rfl⟩
    | phaseQc => exact ⟨rfl, rfl⟩
    | _ => exact h.elim
  · cases msg with
    | vote => exact ⟨rfl, rfl⟩
    | newView => exact ⟨rfl, rfl⟩
    | _ => exact h.elim

/-- A node sends nothing twice to the same node. -/
theorem letters_once [DecidableEq C.Sig] {w : Wiring C} {r : Replica C} (hslots : r.slots.Nodup)
    (ha : ∀ e ∈ r.effects, e.Addressed w r) :
    (r.effects.filterMap (Effect.letterTo i)).count msg ≤ 1 := by
  cases hs : msg.slot with
  | none =>
    have hnone : msg ∉ r.effects.filterMap (Effect.letterTo i) := by
      intro hm
      obtain ⟨e, he, hl⟩ := List.mem_filterMap.mp hm
      have hsome := ((ha e he).slot hl).2
      rw [hs] at hsome
      cases hsome
    rw [List.count_eq_zero_of_not_mem hnone]
    exact Nat.zero_le 1
  | some slot =>
    refine le_trans ?_ (List.nodup_iff_count_le_one.mp hslots slot)
    rw [Replica.slots, List.count_filterMap, List.count_filterMap]
    refine List.countP_mono_left (fun e he hl => ?_)
    rw [beq_iff_eq] at hl ⊢
    rw [((ha e he).slot hl).1, hs]

/-- A node that has made a step has spawned a task for all that a task is to do. -/
theorem spawned_balance [DecidableEq β] {f : Effect C → Option β} {b : β} {x : Nat}
    {host : Host C} {new tasks : List (Effect C)} (hf : ∀ e, e.spawns = false → f e = none)
    (hh : F'.hosts = Function.update F.hosts j host)
    (hs : F'.spawned = Function.update F.spawned j (tasks ++ new.filter Effect.spawns))
    (heff : host.effects = (F.hosts j).effects ++ new)
    (htasks : (tasks.filterMap f).count b + x = ((F.spawned j).filterMap f).count b) (a : Nat) :
    ((F'.spawned a).filterMap f).count b + (if a = j then x else 0) +
        ((F.hosts a).effects.filterMap f).count b =
      ((F.spawned a).filterMap f).count b + ((F'.hosts a).effects.filterMap f).count b := by
  have hnew : (new.filter Effect.spawns).filterMap f = new.filterMap f := by
    rw [List.filterMap_filter]
    refine List.filterMap_congr (fun e _ => ?_)
    cases hspawns : e.spawns with
    | true => rfl
    | false => simp [hf e hspawns]
  by_cases ha : a = j
  · subst a
    rw [hh, hs, Function.update_self, Function.update_self, heff, List.filterMap_append,
      List.filterMap_append, hnew, List.count_append, List.count_append, if_pos rfl]
    omega
  · simp [hh, hs, ha]

theorem letterTo_spawns {e : Effect C} (h : e.spawns = false) : e.letterTo i = none := by
  cases e with
  | broadcast => cases h
  | sendTo => cases h
  | _ => rfl

/-- What a spawned task puts on the connections of a node. -/
theorem Wired.posts {h : Host C} (hw : Wired M j h) {c : Nat} (hp : M.peer c j = some i)
    (e : Effect C) :
    h.peerWriters.entries.filterMap
        (fun writer => if writer.2 = c then e.letterTo writer.1 else none) =
      if h.peerWriters.get? i = some c then (e.letterTo i).toList else [] := by
  refine EntryMap.filterMap_value (fun p hwriter => ?_) (fun p => e.letterTo p)
  have hlive := (hw.writers c p).mpr hwriter
  exact Option.some.inj ((hw.known c p (Or.inr hlive)).1.symm.trans hp)

variable [DecidableEq C.Sig]

theorem Fleet.Takes.letters {ev : Option (Event C)} {tasks : List (Effect C)}
    {inbox : List (Nat × Wire C)} (h : F.Takes quiet j ev tasks inbox) :
    (tasks.filterMap (Effect.letterTo i)).count msg =
      ((F.spawned j).filterMap (Effect.letterTo i)).count msg := by
  cases h with
  | timer k view ms armed =>
    simpa [Effect.letterTo] using count_filterMap_eraseIdx (f := Effect.letterTo i) armed msg
  | _ => rfl

theorem Fleet.Takes.arrived {ev : Option (Event C)} {tasks : List (Effect C)}
    {inbox : List (Nat × Wire C)} (h : F.Takes quiet j ev tasks inbox) :
    ((F.taken j ++ ev.toList).filterMap Event.wire).count msg + (inbox.map Prod.snd).count msg =
      F.arrived j msg := by
  unfold Fleet.arrived
  cases h with
  | message c msg' rest first =>
    simp only [first, Option.toList_some, List.filterMap_append, List.filterMap_cons, Event.wire,
      List.filterMap_nil, List.count_append, List.map_cons, List.count_cons, List.count_nil]
    omega
  | _ => simp [List.filterMap_cons, Event.wire]

/-- A message goes out on the one connection that its node has a writer for. -/
theorem Wired.onWires (hw : Wired M msg.declared (F.hosts msg.declared)) {e : Effect C} :
    (F.post msg.declared e).onWires M i msg = F.onWires M i msg +
      if ((F.hosts msg.declared).peerWriters.get? i).isSome then (e.letterTo i).toList.count msg
      else 0 := by
  have hterm : ∀ c, (if M.peer c msg.declared = some i then
        ((F.post msg.declared e).wires msg.declared c).count msg else 0) =
      (if M.peer c msg.declared = some i then (F.wires msg.declared c).count msg else 0) +
        if (F.hosts msg.declared).peerWriters.get? i = some c then
          (e.letterTo i).toList.count msg else 0 := by
    intro c
    by_cases hp : M.peer c msg.declared = some i
    · rw [if_pos hp, if_pos hp, Fleet.post]
      simp only [Function.update_self, List.count_append, hw.posts hp]
      split <;> rfl
    · have hnot : (F.hosts msg.declared).peerWriters.get? i ≠ some c :=
        fun hwriter => hp (hw.known c i (Or.inr ((hw.writers c i).mpr hwriter))).1
      rw [if_neg hp, if_neg hp, if_neg hnot]
  unfold Fleet.onWires
  rw [Finset.sum_congr rfl (fun c _ => hterm c), Finset.sum_add_distrib]
  congr 1
  cases hwriter : (F.hosts msg.declared).peerWriters.get? i with
  | none => simp
  | some c =>
    obtain ⟨hp, _⟩ := hw.known c i (Or.inr ((hw.writers c i).mpr hwriter))
    simp [Mesh.peer_lt hp]

/-- A message that arrives has left its connection. -/
theorem Fleet.Refines.arrives (hM : M.Sound) (h : F.Refines M) {a c : Nat} {first : Wire C}
    {rest : List (Wire C)} (hp : M.peer c a = some j) (hfirst : F.wires j c = first :: rest)
    (hh : F'.hosts = Function.update F.hosts a ((F.hosts a).forward c first))
    (hw : F'.wires = Function.update F.wires j (Function.update (F.wires j) c rest))
    (ht : F'.taken = F.taken) (hs : F'.spawned = F.spawned) :
    F'.arrived i msg + F'.onWires M i msg + F'.unsent i msg + F.written i msg =
      F.arrived i msg + F.onWires M i msg + F.unsent i msg + F'.written i msg := by
  obtain ⟨_, _, hback⟩ := hM.peer hp
  have hdecl : first.declared = j := h.declared (c := c) (by simp [hfirst])
  have harrived : F'.arrived i msg = F.arrived i msg +
      if i = a ∧ first = msg then 1 else 0 := by
    unfold Fleet.arrived
    rw [hh, ht]
    by_cases hi : i = a
    · simp [hi, Host.forward, List.count_cons, Nat.add_assoc]
    · simp [hi]
  have hwires : F'.onWires M i msg + (if i = a ∧ first = msg then 1 else 0) =
      F.onWires M i msg := by
    unfold Fleet.onWires
    rw [hw]
    by_cases hj : msg.declared = j
    · rw [hj, Function.update_self]
      have hsum := sum_update (fun c (ws : List (Wire C)) =>
        if M.peer c j = some i then ws.count msg else 0) (F.wires j) (Mesh.peer_lt hp) rest
      by_cases hi : i = a
      · simp only [hi, hback, hfirst, List.count_cons, beq_iff_eq, if_true, true_and] at hsum ⊢
        omega
      · have hi' : ¬ a = i := fun he => hi he.symm
        simpa [hi, hi', hback] using hsum
    · have hne : first ≠ msg := fun he => hj (he ▸ hdecl)
      simp [hj, hne]
  have hunsent : F'.unsent i msg = F.unsent i msg := by
    unfold Fleet.unsent
    rw [hs]
  have hwritten : F'.written i msg = F.written i msg := by
    have heff : (F'.hosts msg.declared).effects = (F.hosts msg.declared).effects := by
      rw [hh]
      refine update_all (P := fun j (h : Host C) => h.effects = (F.hosts j).effects) ?_ rfl
      rfl
    unfold Fleet.written
    rw [heff]
  omega

/-- A node that goes on has taken what it had, and has everything it sends before it. -/
theorem goes_on_balance {a : Nat} {host : Host C} {new tasks : List (Effect C)}
    {log : List (Event C)} (hh : F'.hosts = Function.update F.hosts a host)
    (hs : F'.spawned = Function.update F.spawned a (tasks ++ new.filter Effect.spawns))
    (ht : F'.taken = Function.update F.taken a log) (hw : F'.wires = F.wires)
    (heff : host.effects = (F.hosts a).effects ++ new)
    (htasks : (tasks.filterMap (Effect.letterTo i)).count msg =
      ((F.spawned a).filterMap (Effect.letterTo i)).count msg)
    (hlog : (log.filterMap Event.wire).count msg + (host.inbox.map Prod.snd).count msg =
      F.arrived a msg) :
    F'.arrived i msg + F'.onWires M i msg + F'.unsent i msg + F.written i msg =
      F.arrived i msg + F.onWires M i msg + F.unsent i msg + F'.written i msg := by
  have hbalance := spawned_balance (f := Effect.letterTo i) (x := 0)
    (fun _ => letterTo_spawns) hh hs heff htasks msg.declared
  have harrived : F'.arrived i msg = F.arrived i msg := by
    by_cases hi : i = a
    · subst i
      simpa [Fleet.arrived, hh, ht] using hlog
    · simp [Fleet.arrived, hh, ht, hi]
  have hwires : F'.onWires M i msg = F.onWires M i msg := by
    unfold Fleet.onWires
    rw [hw]
  simp only [ite_self, Nat.add_zero] at hbalance
  unfold Fleet.unsent Fleet.written
  omega

/-- No step of a fleet makes a copy of a message. One is lost only where the sender
has no writer for the node. -/
theorem Fleet.Step.balance (i : Nat) (msg : Wire C) (hM : M.Sound) (h : F.Refines M)
    (hs : Fleet.Step quiet M F F') :
    ∃ lost, F'.arrived i msg + F'.onWires M i msg + F'.unsent i msg + F.written i msg + lost =
        F.arrived i msg + F.onWires M i msg + F.unsent i msg + F'.written i msg ∧
      ((F.spawned msg.declared ≠ [] → ((F.hosts msg.declared).peerWriters.get? i).isSome) →
        lost = 0) := by
  cases hs with
  | link a host ha hr _ =>
    obtain ⟨htask, hinbox⟩ := hr.same
    have hbox : (Function.update F.hosts a host i).inbox = (F.hosts i).inbox :=
      update_all (P := fun j (h : Host C) => h.inbox = (F.hosts j).inbox) hinbox rfl
    have heff : (Function.update F.hosts a host msg.declared).effects =
        (F.hosts msg.declared).effects :=
      update_all (P := fun j (h : Host C) => h.effects = (F.hosts j).effects)
        (by simp [Host.effects, htask]) rfl
    exact ⟨0, by simp [Fleet.arrived, Fleet.onWires, Fleet.unsent, Fleet.written, hbox, heff]⟩
  | begin a ha hwait hready =>
    refine ⟨0, goes_on_balance rfl rfl (Function.update_eq_self a F.taken).symm rfl ?_ rfl rfl,
      fun _ => rfl⟩
    simp [Host.effects, hwait]
  | take a ev m m' new tasks inbox ha htask hsrc hstep _ hnew =>
    refine ⟨0, goes_on_balance rfl rfl rfl rfl ?_ hsrc.letters hsrc.arrived, fun _ => rfl⟩
    simp [Host.effects, htask, hnew]
  | send a k e hwaits hsends =>
    by_cases ha : msg.declared = a
    · subst a
      have hw := h.wired _ (h.spawned _ e (List.mem_of_getElem? hwaits)).1
      have hposts := Wired.onWires (F := F.finish msg.declared k) (i := i) (e := e) hw
      have hgone := count_filterMap_eraseIdx (f := Effect.letterTo i) hwaits msg
      have hunsent : ((F.finish msg.declared k).post msg.declared e).unsent i msg +
          (e.letterTo i).toList.count msg = F.unsent i msg := by
        simpa [Fleet.unsent, Fleet.post, Fleet.finish] using hgone
      refine ⟨if ((F.hosts msg.declared).peerWriters.get? i).isSome then 0
        else (e.letterTo i).toList.count msg, ?_, fun hwriter => if_pos (hwriter ?_)⟩
      swap
      · intro hnil
        simp [hnil] at hwaits
      rw [hposts, ← hunsent]
      change F.arrived i msg + (F.onWires M i msg + if ((F.hosts msg.declared).peerWriters.get?
        i).isSome then _ else _) + _ + F.written i msg + _ = F.arrived i msg + _ + _ +
        F.written i msg
      split <;> omega
    · refine ⟨0, ?_, fun _ => rfl⟩
      simp [Fleet.arrived, Fleet.onWires, Fleet.unsent, Fleet.written, Fleet.post, Fleet.finish, ha]
  | arrive a c j p first rest ha hp hfirst hlive =>
    exact ⟨0, h.arrives hM hp hfirst rfl rfl rfl rfl, fun _ => rfl⟩

theorem Fleet.Refines.written_le (h : F.Refines M) (i : Nat) (msg : Wire C) :
    F.written i msg ≤ 1 := by
  unfold Fleet.written
  rcases Fleet.effects_cases M F msg.declared with hnone | heff
  · simp [hnone]
  · have hr := h.reach.machine msg.declared
    rw [heff]
    exact letters_once (reach_tidy hr).once (reach_addressed hr)

/-- Every message reaches a node at most once, whatever becomes of the connections. -/
theorem Fleet.Reach.copies_le (hM : M.Sound) (h : Fleet.Reach M F) (i : Nat) (msg : Wire C) :
    F.arrived i msg + F.onWires M i msg + F.unsent i msg ≤ F.written i msg := by
  induction h with
  | boot => simp [Fleet.boot, Host.boot, Fleet.arrived, Fleet.onWires, Fleet.unsent]
  | act a hr ha hw ih =>
    obtain ⟨lost, hbalance, _⟩ :=
      (act_step False.elim False.elim ha hw).balance i msg hM (hr.refines hM)
    omega

end

theorem Fleet.Reach.arrived_once {M : Mesh C} {F : Fleet C} (hM : M.Sound) (h : Fleet.Reach M F)
    (i : Nat) : ((F.taken i).filterMap Event.wire ++ (F.hosts i).inbox.map Prod.snd).Nodup := by
  classical
  refine List.nodup_iff_count_le_one.mpr (fun msg => ?_)
  have hcopies := h.copies_le hM i msg
  have hwritten := (h.refines hM).written_le i msg
  rw [List.count_append]
  unfold Fleet.arrived at hcopies
  omega

namespace Pair

/-- Node 0 has dialed node 1. -/
def mesh : Mesh Quartet.crypto where
  cluster := cluster
  pubkey i := [UInt8.ofNat i]
  links := [(0, 1)]

theorem mesh_sound : mesh.Sound where
  free := rfl
  keys i hi := by
    have hlt : i < 2 := hi
    obtain rfl | rfl : i = 0 ∨ i = 1 := by omega
    · rfl
    · rfl
  links := by decide

/-- The nodes connect and begin, node 0 takes the first message of node 1, and then
its connection ends. -/
def acts : List FleetAct :=
  [.greet 0 0, .greet 1 0, .publish 1 0, .begin 1, .publish 0 0, .begin 0] ++
    List.replicate 10 (.rule 0 .asStored) ++ [.send 1 0, .arrive 0 0, .receive 0, .readClosed 0 0]

end Pair

theorem Fleet.Reach.follow {M : Mesh C} {F : Fleet C} {acts : List FleetAct}
    (hc : M.cluster.overflowChecks = true)
    (h : Basis.follow (Fleet.act M) (.boot M) acts = some F) : Fleet.Reach M F :=
  follow_invariant (P := fun _ F => Fleet.Reach M F) .boot
    (fun _ _ a _ hr ha => hr.act a ha
      (act_bounded (fun _ _ _ _ _ _ _ hstep => step_bounded hstep hc) ha)) h

/-- A fleet runs the protocol of its cluster, whenever its nodes connect and whatever
becomes of their connections. A node that has begun goes by the true keys, and
every message that comes to it is one that the node it names has sent it, and
comes once. -/
theorem fleet_is_a_cluster {M : Mesh C} {F : Fleet C} (hM : M.Sound) (h : Fleet.Reach M F) :
    System.Reach M.cluster M.cluster.Posted (F.system M) ∧
      ∀ i < M.cluster.n,
        ((F.hosts i).task.isSome → (F.hosts i).peerKeys.get? = M.cluster.peerKeys) ∧
        ((F.taken i).filterMap Event.wire ++ (F.hosts i).inbox.map Prod.snd).Nodup ∧
        ∀ msg ∈ (F.taken i).filterMap Event.wire ++ (F.hosts i).inbox.map Prod.snd,
          ∃ e ∈ (F.system M msg.declared).replica.effects, e.letterTo i = some msg := by
  classical
  have href := h.refines hM
  refine ⟨href.reach, fun i hi => ⟨(href.wired i hi).peerKeys, h.arrived_once hM i, ?_⟩⟩
  intro msg hmsg
  have hcopies := h.copies_le hM i msg
  have hpos := List.count_pos_iff.mpr hmsg
  rw [List.count_append] at hpos
  have hwritten : 0 < F.written i msg := by
    unfold Fleet.arrived at hcopies
    omega
  obtain ⟨e, he, hl⟩ := List.mem_filterMap.mp (List.count_pos_iff.mp hwritten)
  refine ⟨e, ?_, hl⟩
  rcases Fleet.effects_cases M F msg.declared with hnone | heff
  · simp [hnone] at he
  · rwa [heff] at he

theorem pair_fleet_connects : ∃ F : Fleet Quartet.crypto,
    Fleet.Reach Pair.mesh F ∧ (F.hosts 0).conns 0 = .closed ∧
      ((F.taken 0).filterMap Event.wire).length = 1 ∧
      System.Reach Pair.cluster Pair.cluster.Posted (F.system Pair.mesh) ∧
      ∀ i < 2, ((F.hosts i).task.isSome → (F.hosts i).peerKeys.get? = Pair.cluster.peerKeys) ∧
        ((F.taken i).filterMap Event.wire ++ (F.hosts i).inbox.map Prod.snd).Nodup ∧
        ∀ msg ∈ (F.taken i).filterMap Event.wire ++ (F.hosts i).inbox.map Prod.snd,
          ∃ e ∈ (F.system Pair.mesh msg.declared).replica.effects, e.letterTo i = some msg := by
  have hplay : (follow (Fleet.act Pair.mesh) (.boot Pair.mesh) Pair.acts).any (fun F => decide
      ((F.hosts 0).conns 0 = .closed ∧ ((F.taken 0).filterMap Event.wire).length = 1)) = true := by
    decide +kernel
  obtain ⟨F, hF, hstate⟩ := Option.any_eq_true _ _ |>.mp hplay
  obtain ⟨hclosed, htaken⟩ := of_decide_eq_true hstate
  have hr := Fleet.Reach.follow rfl hF
  exact ⟨F, hr, hclosed, htaken, fleet_is_a_cluster Pair.mesh_sound hr⟩

end ZkStf
