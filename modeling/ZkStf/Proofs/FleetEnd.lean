import ZkStf.Proofs.CalmBound
import ZkStf.Proofs.FleetMail

namespace ZkStf
open ZkStf.Basis
variable {C : Crypto}

/-- Every two nodes have a connection. -/
def Mesh.Joined (M : Mesh C) : Prop :=
  ∀ i < M.cluster.n, ∀ j < M.cluster.n, i ≠ j → ∃ c, M.peer c i = some j

/-- A node that has dropped no connection but for another one to the same peer. -/
structure Anchored (M : Mesh C) (i : Nat) (h : Host C) : Prop where
  opened : ∀ c j, M.peer c i = some j → h.conns c = .closed → (h.peerWriters.get? j).isSome
  connected : h.task.isSome → ∀ p < M.cluster.n, p ≠ i → (h.peerWriters.get? p).isSome

/-- Any two nodes write to each other on the same connection, and only nodes that
have begun have spawned tasks. -/
structure Fleet.Moored (M : Mesh C) (F : Fleet C) : Prop where
  anchored : ∀ i < M.cluster.n, Anchored M i (F.hosts i)
  begun : ∀ i < M.cluster.n, F.spawned i ≠ [] → (F.hosts i).task.isSome
  agrees : ∀ i j c d, (F.hosts i).peerWriters.get? j = some c →
    (F.hosts j).peerWriters.get? i = some d → c = d
  mailed : ∀ j c msg, msg ∈ F.wires j c → ∃ i, (F.hosts j).peerWriters.get? i = some c

section
variable {quiet : Prop} {M : Mesh C} {F F' : Fleet C} {i t : Nat}

theorem Relinks.anchored {h h' : Host C} (hr : Relinks True M i h h') (hM : M.Sound)
    (hw : Wired M i h) (hm : Anchored M i h) : Anchored M i h' := by
  cases hr with
  | greet c j hp hc =>
    rw [hM.greet (hM.peer hp).1]
    refine ⟨fun d p hd hclosed => ?_, hm.connected⟩
    simp only [Host.withConn, Function.update_apply] at hclosed
    split at hclosed
    · cases hclosed
    · exact hm.opened d p hd hclosed
  | publish c p hc =>
    obtain ⟨hp, _⟩ := hw.known c p (Or.inl hc)
    unfold Host.publish
    split
    · rename_i hsecond
      refine ⟨fun d q hd hclosed => ?_, hm.connected⟩
      simp only [Host.withConn, Function.update_apply] at hclosed
      split at hclosed
      · subst d
        cases hp.symm.trans hd
        exact hsecond
      · exact hm.opened d q hd hclosed
    · refine ⟨fun d q hd hclosed => ?_, fun ht q hq hqi => ?_⟩
      · simp only [Host.withConn, Function.update_apply] at hclosed
        split at hclosed
        · cases hclosed
        · exact EntryMap.isSome_insert.mpr (Or.inr (hm.opened d q hd hclosed))
      · exact EntryMap.isSome_insert.mpr (Or.inr (hm.connected ht q hq hqi))
  | fail c hc loud => exact (loud trivial).elim
  | close c p hc loud => exact (loud trivial).elim

/-- In a quiet network a writer stays. -/
theorem Relinks.writers {h h' : Host C} (hr : Relinks True M i h h') {p c : Nat}
    (hp : h.peerWriters.get? p = some c) : h'.peerWriters.get? p = some c := by
  cases hr with
  | greet d j =>
    rw [greet_writers]
    exact hp
  | publish d q =>
    unfold Host.publish
    split
    · exact hp
    · rename_i hnone
      simp only [Host.withConn, EntryMap.get?_insert]
      split
      · subst q
        simp [hp] at hnone
      · exact hp
  | fail d hd loud => exact (loud trivial).elim
  | close d q hd loud => exact (loud trivial).elim

theorem Fleet.Moored.boot (M : Mesh C) : Fleet.Moored M (.boot M) where
  anchored _ _ := ⟨fun _ _ _ => nofun, nofun⟩
  begun _ _ h := (h rfl).elim
  agrees _ _ _ _ h := nomatch h
  mailed _ _ _ h := nomatch h

/-- The connection tasks of a node go on. -/
theorem Fleet.Moored.relinks {a : Nat} {host : Host C} (hM : M.Sound) (href : F.Refines M)
    (h : F.Moored M) (ha : a < M.cluster.n) (hr : Relinks True M a (F.hosts a) host)
    (hcon : ∀ p c, host.peerWriters.get? p = some c →
      (F.hosts a).peerWriters.get? p = some c ∨
        ∀ d, (F.hosts p).peerWriters.get? a = some d → d = c) :
    Fleet.Moored M { F with hosts := Function.update F.hosts a host } where
  anchored i hi := update_all (P := fun i host => Anchored M i host)
    (hr.anchored hM (href.wired a ha) (h.anchored a ha)) (h.anchored i hi)
  begun i hi := update_all (P := fun i (host : Host C) => F.spawned i ≠ [] → host.task.isSome)
    (by rw [hr.same.1]; exact h.begun a ha) (h.begun i hi)
  agrees i j c d hc hd := by
    dsimp only at hc hd
    by_cases hia : i = a <;> by_cases hja : j = a
    · subst i j
      exact Option.some.inj (hc.symm.trans hd)
    · subst i
      rw [Function.update_self] at hc
      rw [Function.update_of_ne hja] at hd
      rcases hcon j c hc with hold | hfirst
      · exact h.agrees a j c d hold hd
      · exact (hfirst d hd).symm
    · subst j
      rw [Function.update_of_ne hia] at hc
      rw [Function.update_self] at hd
      rcases hcon i d hd with hold | hfirst
      · exact h.agrees i a c d hc hold
      · exact hfirst c hc
    · rw [Function.update_of_ne hia] at hc
      rw [Function.update_of_ne hja] at hd
      exact h.agrees i j c d hc hd
  mailed j c msg hm := by
    obtain ⟨i, hi⟩ := h.mailed j c msg hm
    refine ⟨i, ?_⟩
    exact update_all (P := fun j (host : Host C) =>
      (F.hosts j).peerWriters.get? i = some c → host.peerWriters.get? i = some c)
      (fun hp => hr.writers hp) id hi

/-- A node goes on by itself, or starts to. -/
theorem Fleet.Moored.goes_on {a : Nat} {m : Machine C} {inbox : List (Nat × Wire C)}
    (h : F.Moored M) (ha : a < M.cluster.n)
    (hh : F'.hosts = Function.update F.hosts a { F.hosts a with inbox := inbox, task := some m })
    (hs : ∀ i ≠ a, F'.spawned i = F.spawned i) (hwires : F'.wires = F.wires)
    (hwriters : ∀ p < M.cluster.n, p ≠ a → ((F.hosts a).peerWriters.get? p).isSome) :
    F'.Moored M := by
  have hsame : ∀ i, (F'.hosts i).peerWriters = (F.hosts i).peerWriters := by
    intro i
    rw [hh]
    refine update_all (P := fun i (host : Host C) => host.peerWriters = (F.hosts i).peerWriters)
      ?_ rfl
    rfl
  refine ⟨fun i hi => ?_, fun i hi => ?_, ?_, ?_⟩
  · rw [hh]
    refine update_all (P := fun i host => Anchored M i host) ?_ (h.anchored i hi)
    exact ⟨(h.anchored a ha).opened, fun _ => hwriters⟩
  · rw [hh]
    by_cases hia : i = a
    · subst i
      rw [Function.update_self]
      exact fun _ => rfl
    · rw [Function.update_of_ne hia, hs i hia]
      exact h.begun i hi
  · simp only [hsame]
    exact h.agrees
  · simp only [hsame, hwires]
    exact h.mailed

theorem Fleet.Moored.step (hM : M.Sound) (href : F.Refines M) (h : F.Moored M)
    (hs : Fleet.Step True M F F') : F'.Moored M := by
  cases hs with
  | link a host ha hr hcon => exact h.relinks hM href ha hr (hcon trivial)
  | begin a ha hwait hready =>
    exact h.goes_on ha rfl (fun i hia => by simp [hia]) rfl
      (fun p hp => (href.wired a ha).all_writers hM hready hp)
  | take a ev m m' new tasks inbox ha htask hsrc hstep hbound hnew =>
    exact h.goes_on ha rfl (fun i hia => by simp [hia]) rfl
      ((h.anchored a ha).connected (by rw [htask]; rfl))
  | send a k e hwaits hsends =>
    refine ⟨h.anchored, fun i hi hspawned => h.begun i hi (fun hnil => hspawned ?_), h.agrees, ?_⟩
    · exact update_all (P := fun i es => F.spawned i = [] → es = []) (fun hnil => by simp [hnil])
        id hnil
    · intro j c msg hm
      by_cases hj : j = a
      · subst j
        simp only [Fleet.post, Fleet.finish, Function.update_self] at hm
        rcases List.mem_append.mp hm with hm | hm
        · exact h.mailed a c msg hm
        · obtain ⟨writer, hwriter, hl⟩ := List.mem_filterMap.mp hm
          split at hl
          · rename_i hc
            exact ⟨writer.1, EntryMap.get?_eq_some.mpr (hc ▸ hwriter)⟩
          · cases hl
      · simp only [Fleet.post, Fleet.finish, Function.update_of_ne hj] at hm
        exact h.mailed j c msg hm
  | arrive a c j p first rest ha hp hfirst hlive =>
    have hsame : ∀ i, (Function.update F.hosts a ((F.hosts a).forward c first) i).peerWriters =
        (F.hosts i).peerWriters := by
      intro i
      refine update_all (P := fun i (host : Host C) => host.peerWriters = (F.hosts i).peerWriters)
        ?_ rfl
      rfl
    refine ⟨fun i hi => ?_, fun i hi => ?_, ?_, ?_⟩
    · refine update_all (P := fun i host => Anchored M i host) ?_ (h.anchored i hi)
      exact ⟨(h.anchored a ha).opened, (h.anchored a ha).connected⟩
    · refine update_all (P := fun i (host : Host C) => F.spawned i ≠ [] → host.task.isSome)
        ?_ (h.begun i hi)
      exact h.begun a ha
    · simp only [hsame]
      exact h.agrees
    · simp only [hsame]
      intro b d msg hm
      refine h.mailed b d msg ?_
      by_cases hb : b = j
      · subst b
        rw [Function.update_self, Function.update_apply] at hm
        split at hm
        · subst d
          rw [hfirst]
          exact List.mem_cons_of_mem _ hm
        · exact hm
      · rw [Function.update_of_ne hb] at hm
        exact hm

/-- The timer a task is to let go off. -/
def Effect.rings : Effect C → Option Nat
  | .armTimer v _ => some v
  | _ => none

theorem rings_spawns {e : Effect C} (h : e.spawns = false) : e.rings = none := by
  cases e with
  | armTimer => cases h
  | _ => rfl

/-- The timers that have gone off at a node, or are still to. -/
def Fleet.timers (F : Fleet C) (i v : Nat) : Nat :=
  ((F.taken i).filterMap Event.timed).count v + ((F.spawned i).filterMap Effect.rings).count v

/-- The timers that a node has armed. -/
def Fleet.armed (F : Fleet C) (i v : Nat) : Nat :=
  ((F.hosts i).effects.filterMap Effect.rings).count v

theorem Fleet.Takes.rings {ev : Option (Event C)} {tasks : List (Effect C)}
    {inbox : List (Nat × Wire C)} (h : F.Takes quiet i ev tasks inbox) (v : Nat) :
    (tasks.filterMap Effect.rings).count v + (ev.toList.filterMap Event.timed).count v =
      ((F.spawned i).filterMap Effect.rings).count v := by
  cases h with
  | timer k view ms armed => exact count_filterMap_eraseIdx armed v
  | _ => rfl

theorem goes_on_timers {a v : Nat} {host : Host C} {new tasks : List (Effect C)}
    {l : List (Event C)} (hh : F'.hosts = Function.update F.hosts a host)
    (hs : F'.spawned = Function.update F.spawned a (tasks ++ new.filter Effect.spawns))
    (ht : F'.taken = Function.update F.taken a (F.taken a ++ l))
    (heff : host.effects = (F.hosts a).effects ++ new)
    (htasks : (tasks.filterMap Effect.rings).count v + (l.filterMap Event.timed).count v =
      ((F.spawned a).filterMap Effect.rings).count v) :
    F'.timers i v + F.armed i v = F.timers i v + F'.armed i v := by
  have hbalance := spawned_balance (f := Effect.rings) (fun _ => rings_spawns) hh hs heff htasks i
  have htaken : ((F'.taken i).filterMap Event.timed).count v =
      ((F.taken i).filterMap Event.timed).count v +
        if i = a then (l.filterMap Event.timed).count v else 0 := by
    rw [ht]
    by_cases hi : i = a
    · simp [hi]
    · simp [hi]
  unfold Fleet.timers Fleet.armed
  omega

theorem Fleet.Step.timers (hs : Fleet.Step quiet M F F') (i v : Nat) :
    F'.timers i v + F.armed i v = F.timers i v + F'.armed i v := by
  have hsame : ∀ a host, host.effects = (F.hosts a).effects →
      (Function.update F.hosts a host i).effects = (F.hosts i).effects := fun a host he =>
    update_all (P := fun i (h : Host C) => h.effects = (F.hosts i).effects) he rfl
  cases hs with
  | link a host ha hr hcon =>
    simp [Fleet.timers, Fleet.armed, hsame a host (by simp [Host.effects, hr.same.1])]
  | begin a ha hwait hready =>
    refine goes_on_timers (l := []) rfl rfl ?_ ?_ rfl
    · simp
    · simp [Host.effects, hwait]
  | take a ev m m' new tasks inbox ha htask hsrc hstep hbound hnew =>
    refine goes_on_timers rfl rfl rfl ?_ (hsrc.rings v)
    simp [Host.effects, htask, hnew]
  | send a k e hwaits hsends =>
    have hrings : e.rings = none := by
      cases e with
      | armTimer => cases hsends
      | _ => rfl
    have hgone := count_filterMap_eraseIdx (f := Effect.rings) hwaits v
    have hspawned : ((((F.finish a k).post a e).spawned i).filterMap Effect.rings).count v =
        ((F.spawned i).filterMap Effect.rings).count v := by
      refine update_all (P := fun i (es : List (Effect C)) => (es.filterMap Effect.rings).count v =
        ((F.spawned i).filterMap Effect.rings).count v) ?_ rfl
      simpa [hrings] using hgone
    unfold Fleet.timers Fleet.armed
    rw [hspawned]
    rfl
  | arrive a c j p first rest ha hp hfirst hlive =>
    simp [Fleet.timers, Fleet.armed, hsame a ((F.hosts a).forward c first) rfl]

/-- Every timer that a node has armed goes off once, sooner or later. -/
theorem Fleet.Reach.timers (h : Fleet.Reach M F) (i v : Nat) : F.timers i v = F.armed i v := by
  induction h with
  | boot => simp [Fleet.boot, Host.boot, Fleet.timers, Fleet.armed, Host.effects]
  | act a hr ha hw ih =>
    have hbalance := (act_step False.elim False.elim ha hw).timers i v
    omega

theorem Fleet.Refines.armed_le (h : F.Refines M) (i v : Nat) : F.armed i v ≤ 1 := by
  unfold Fleet.armed
  rcases Fleet.effects_cases M F i with hnone | heff
  · simp [hnone]
  · have hslots := (reach_tidy (h.reach.machine i)).once
    refine le_trans ?_ (List.nodup_iff_count_le_one.mp hslots (.timer v))
    rw [heff, Replica.slots, List.count_filterMap, List.count_filterMap]
    refine List.countP_mono_left (fun e _ hr => ?_)
    cases e with
    | armTimer u ms => simpa [Effect.rings, Effect.slot] using hr
    | _ => cases hr

/-- What a node of a quiet fleet takes is due. -/
theorem Fleet.Takes.due {ev : Option (Event C)} {tasks : List (Effect C)}
    {inbox : List (Nat × Wire C)} {m : Machine C} (hM : M.Sound) (hr : Fleet.Reach M F)
    (htask : (F.hosts i).task = some m) (h : F.Takes True i ev tasks inbox) :
    M.cluster.Due F.taken (F.system M) i ev := by
  classical
  have href := hr.refines hM
  have hm : F.system M i = m := by simp [Fleet.system, htask]
  cases h with
  | rule => trivial
  | message c msg rest first =>
    refine ⟨href.inbox i (c, msg) (by simp [first]), fun hold => ?_⟩
    have hle := (hr.copies_le hM i msg).trans (href.written_le i msg)
    have htaken : 0 < ((F.taken i).filterMap Event.wire).count msg :=
      List.count_pos_iff.mpr (List.mem_filterMap.mpr ⟨_, hold, rfl⟩)
    have hinbox : 0 < ((F.hosts i).inbox.map Prod.snd).count msg :=
      List.count_pos_iff.mpr (by simp [first])
    unfold Fleet.arrived at hle
    omega
  | timer k view ms armed late =>
    have hmem := List.mem_of_getElem? armed
    refine ⟨⟨ms, (href.spawned i _ hmem).2⟩, hm ▸ late trivial m htask, fun hold => ?_⟩
    have hle := (hr.timers i view).trans_le (href.armed_le i view)
    have htaken : 0 < ((F.taken i).filterMap Event.timed).count view :=
      List.count_pos_iff.mpr (List.mem_filterMap.mpr ⟨_, hold, rfl⟩)
    have hspawned : 0 < ((F.spawned i).filterMap Effect.rings).count view :=
      List.count_pos_iff.mpr (List.mem_filterMap.mpr ⟨_, hmem, rfl⟩)
    unfold Fleet.timers at hle
    omega
  | answer asked =>
    refine ⟨rfl, ?_⟩
    simpa [hm, Host.valReqs, htask] using asked

theorem Fleet.Step.prompt {u : Nat} (hM : M.Sound) (hr : Fleet.Reach M F)
    (h : M.cluster.Prompt u F.taken (F.system M)) (hs : Fleet.Step True M F F') :
    ∃ u, M.cluster.Prompt u F'.taken (F'.system M) := by
  have href := hr.refines hM
  cases hs with
  | link a host ha hr hcon =>
    refine ⟨u, ?_⟩
    rw [system_same rfl hr.same.1]
    exact h
  | begin a ha hwait hready =>
    have hstart : F.system M a = .start (M.cluster.wiring a) M.cluster.n := by
      simp [Fleet.system, hwait]
    refine ⟨u, ?_⟩
    rw [system_task rfl rfl, ← hstart, Function.update_eq_self]
    exact h
  | take a ev m m' new tasks inbox ha htask hsrc hstep hbound hnew =>
    have hm : F.system M a = m := by simp [Fleet.system, htask]
    rw [(href.wired a ha).peerKeys (by rw [htask]; rfl), ← hm] at hstep
    refine ⟨u + 1, ?_⟩
    rw [system_task rfl rfl]
    exact h.step a ev m' (hM.honest ha) (hsrc.due hM hr htask) hstep
  | send a k e hwaits hsends => exact ⟨u, h⟩
  | arrive a c j p first rest ha hp hfirst hlive =>
    refine ⟨u, ?_⟩
    rw [system_same rfl (show ((F.hosts a).forward c first).task = _ from rfl)]
    exact h

/-- There is an act to make. -/
def Fleet.Able (M : Mesh C) (F : Fleet C) : Prop :=
  ∃ a, F.Quiet a ∧ F.Concurs a ∧ (F.act M a).isSome

theorem able_greet {c j : Nat} (hi : i < M.cluster.n) (hp : M.peer c i = some j)
    (hc : (F.hosts i).conns c = .handshaking) : F.Able M :=
  ⟨.greet i c, trivial, trivial, by simp [Fleet.act, hp, Fleet.move, hi, Host.act, hc]⟩

theorem able_publish {c p : Nat} (hi : i < M.cluster.n) (hc : (F.hosts i).conns c = .keyed p)
    (hcon : ∀ d, (F.hosts p).peerWriters.get? i = some d → d = c) : F.Able M := by
  refine ⟨.publish i c, trivial, ?_, by simp [Fleet.act, Fleet.move, hi, Host.act, hc]⟩
  intro q d hq _ hd
  cases hc.symm.trans hq
  exact hcon d hd

theorem able_begin (hi : i < M.cluster.n) (ht : (F.hosts i).task = none)
    (hall : M.cluster.n - 1 ≤ (F.hosts i).peerWriters.size) : F.Able M :=
  ⟨.begin i, trivial, trivial, by simp [Fleet.act, Fleet.move, hi, Host.act, ht, hall]⟩

theorem able_send {e : Effect C} (he : e ∈ F.spawned i) (hs : e.isSend = true) : F.Able M := by
  obtain ⟨k, hk⟩ := List.getElem?_of_mem he
  exact ⟨.send i k, trivial, trivial, by simp [Fleet.act, hk, hs]⟩

theorem able_arrive {c j p : Nat} {msg : Wire C} (hi : i < M.cluster.n) (hp : M.peer c i = some j)
    (hmsg : msg ∈ F.wires j c) (hc : (F.hosts i).conns c = .live p) : F.Able M := by
  obtain ⟨first, rest, hfirst⟩ := List.exists_cons_of_ne_nil (List.ne_nil_of_mem hmsg)
  exact ⟨.arrive i c, trivial, trivial, by
    simp [Fleet.act, hp, hfirst, Fleet.move, hi, Host.act, hc]⟩

theorem able_rule {m : Machine C} {rule : Rule} {rest : List Rule} {r : Replica C}
    (hi : i < M.cluster.n) (ht : (F.hosts i).task = some m) (htodo : m.todo = rule :: rest)
    (hran : rule.run (M.cluster.wiring i) .asStored m.replica = .ok r) : F.Able M :=
  ⟨.rule i .asStored, trivial, trivial, by
    simp [Fleet.act, Fleet.move, hi, Host.act, ht, Machine.advance, htodo, hran, Except.toOption]⟩

section
variable {m : Machine C} {ev : Event C} {r : Replica C}

/-- A node that waits for events can take one that it can handle. -/
theorem consume_some {keys : Nat → Option C.Key} {w : Wiring C} (hidle : m.todo = [])
    (hrunning : ¬ finished w m.replica) (hran : handleEvent keys w m.replica ev = .ok r) :
    m.consume keys w ev = some ⟨r, passOrder⟩ := by
  simp [Machine.consume, hidle, hrunning, hran, Except.toOption]

theorem able_receive {c : Nat} {msg : Wire C} {rest : List (Nat × Wire C)} (hi : i < M.cluster.n)
    (ht : (F.hosts i).task = some m) (hbox : (F.hosts i).inbox = (c, msg) :: rest)
    (hc : m.consume (F.hosts i).peerKeys.get? (M.cluster.wiring i) (.message msg) =
      some ⟨r, passOrder⟩) : F.Able M :=
  ⟨.receive i, trivial, trivial, by simp [Fleet.act, hbox, Fleet.move, hi, Host.act, ht, hc]⟩

theorem able_validated (hi : i < M.cluster.n) (ht : (F.hosts i).task = some m)
    (hq : m.replica.valReqs ≠ [])
    (hc : m.consume (F.hosts i).peerKeys.get? (M.cluster.wiring i) (.validated 0) =
      some ⟨r, passOrder⟩) : F.Able M :=
  ⟨.validated i, trivial, trivial, by
    simp [Fleet.act, Host.valReqs, hq, Fleet.move, hi, Host.act, ht, hc]⟩

theorem able_fire {v ms : Nat} (hi : i < M.cluster.n) (ht : (F.hosts i).task = some m)
    (he : .armTimer v ms ∈ F.spawned i) (hlate : v < m.replica.rs.view)
    (hc : m.consume (F.hosts i).peerKeys.get? (M.cluster.wiring i) (.timer v) =
      some ⟨r, passOrder⟩) : F.Able M := by
  obtain ⟨k, hk⟩ := List.getElem?_of_mem he
  refine ⟨.fire i k, ?_, trivial, by
    simp [Fleet.act, hk, Fleet.move, Fleet.finish, hi, Host.act, ht, hc]⟩
  intro view ms' m' hk' ht'
  cases hk.symm.trans hk'
  cases ht.symm.trans ht'
  exact hlate

end

theorem Fleet.Reach.woken {v ms : Nat} (h : Fleet.Reach M F)
    (ht : (F.hosts i).task = some (F.system M i))
    (harmed : .armTimer v ms ∈ (F.system M i).replica.effects)
    (hrung : ∀ ms, .armTimer v ms ∉ F.spawned i) : .timer v ∈ F.taken i := by
  have hpos : 0 < F.armed i v := by
    refine List.count_pos_iff.mpr (List.mem_filterMap.mpr ⟨.armTimer v ms, ?_, rfl⟩)
    simpa [Host.effects, ht] using harmed
  have hspawned : ((F.spawned i).filterMap Effect.rings).count v = 0 := by
    refine List.count_eq_zero_of_not_mem (fun hm => ?_)
    obtain ⟨e, he, hr⟩ := List.mem_filterMap.mp hm
    cases e with
    | armTimer u ms =>
      cases hr
      exact hrung ms he
    | _ => cases hr
  have htimers := h.timers i v
  have htaken : 0 < ((F.taken i).filterMap Event.timed).count v := by
    unfold Fleet.timers at htimers
    omega
  obtain ⟨ev, hev, hw⟩ := List.mem_filterMap.mp (List.count_pos_iff.mp htaken)
  exact timed_eq_some.mp hw ▸ hev

section
variable (hinj : Function.Injective (nodeHash (C := C)))
  (hgen : ∀ node : Node C, nodeHash node ≠ genesisHash C) (hK : M.cluster.Faultless)
  (hM : M.Sound)
include hinj hgen hK hM

/-- Induction over the runs of a fleet in a quiet network. They are prompt runs of
its cluster, so no view comes near the end of its range. -/
theorem quiet_invariant {P : Nat → Fleet C → Prop} (h0 : P 0 (.boot M))
    (hs : ∀ t F F', F.Refines M → P t F → Fleet.Step True M F F' → P (t + 1) F')
    (h : Fleet.QuietRun M t F) :
    (Fleet.Reach M F ∧ ∃ u, M.cluster.Prompt u F.taken (F.system M)) ∧ P t F := by
  induction h with
  | boot => exact ⟨⟨.boot, 0, .start⟩, h0⟩
  | @act t F F' a _ hq hc ha ih =>
    obtain ⟨⟨hr, u, hprompt⟩, hp⟩ := ih
    have hbound : ¬ F.PassesMax F' := by
      refine act_bounded (fun i hi m m' _ _ ht _ hwraps => ?_) ha
      have hsmall := (hprompt.calm hinj hgen hK).view_small hinj hgen hK (hM.honest hi)
      have hmax := hwraps.1
      rw [show F.system M i = m by simp [Fleet.system, ht]] at hsmall
      omega
    have hstep : Fleet.Step True M F F' := act_step (fun _ => hq) (fun _ => hc) ha hbound
    exact ⟨⟨hr.act a ha hbound, hstep.prompt hM hr hprompt⟩, hs t F F' (hr.refines hM) hp hstep⟩

theorem Fleet.QuietRun.prompt (h : Fleet.QuietRun M t F) :
    Fleet.Reach M F ∧ ∃ u, M.cluster.Prompt u F.taken (F.system M) :=
  (quiet_invariant hinj hgen hK hM (P := fun _ _ => True) trivial
    (fun _ _ _ _ _ _ => trivial) h).1

theorem Fleet.QuietRun.refines (h : Fleet.QuietRun M t F) : F.Refines M :=
  (h.prompt hinj hgen hK hM).1.refines hM

theorem Fleet.QuietRun.calm (h : Fleet.QuietRun M t F) :
    M.cluster.Calm F.taken (F.system M) := by
  obtain ⟨_, u, hprompt⟩ := h.prompt hinj hgen hK hM
  exact hprompt.calm hinj hgen hK

theorem Fleet.QuietRun.moored (h : Fleet.QuietRun M t F) : F.Moored M :=
  (quiet_invariant hinj hgen hK hM (P := fun _ F => F.Moored M) (.boot M)
    (fun _ _ _ href hm hs => hm.step hM href hs) h).2

/-- Nothing is lost in a quiet network. -/
theorem Fleet.QuietRun.copies [DecidableEq C.Sig] {msg : Wire C} (h : Fleet.QuietRun M t F)
    (hi : i < M.cluster.n) (hj : msg.declared < M.cluster.n) (hne : i ≠ msg.declared) :
    F.arrived i msg + F.onWires M i msg + F.unsent i msg = F.written i msg := by
  refine (quiet_invariant hinj hgen hK hM (P := fun _ F => F.Moored M ∧
    F.arrived i msg + F.onWires M i msg + F.unsent i msg = F.written i msg) ⟨.boot M, ?_⟩ ?_ h).2.2
  · simp [Fleet.boot, Host.boot, Fleet.arrived, Fleet.onWires, Fleet.unsent, Fleet.written,
      Host.effects]
  · rintro t F F' href ⟨hm, ih⟩ hs
    refine ⟨hm.step hM href hs, ?_⟩
    obtain ⟨lost, hbalance, hlost⟩ := hs.balance i msg hM href
    have hnone := hlost (fun hspawned =>
      (hm.anchored _ hj).connected (hm.begun _ hj hspawned) i hi hne)
    omega

/-- What is on a connection is on one that its receiver reads, or has yet to open. -/
theorem Fleet.QuietRun.unread {msg : Wire C} (h : Fleet.QuietRun M t F) (hi : i < M.cluster.n)
    {c j : Nat} (hp : M.peer c i = some j) (hmsg : msg ∈ F.wires j c) :
    (F.hosts j).peerWriters.get? i = some c ∧ (F.hosts i).conns c ≠ .closed := by
  have hm := h.moored hinj hgen hK hM
  have href := h.refines hinj hgen hK hM
  obtain ⟨hj, _, hback⟩ := hM.peer hp
  obtain ⟨q, hq⟩ := hm.mailed j c msg hmsg
  have hw := href.wired j hj
  cases (hw.known c q (Or.inr ((hw.writers c q).mpr hq))).1.symm.trans hback
  refine ⟨hq, fun hclosed => ?_⟩
  obtain ⟨d, hd⟩ := Option.isSome_iff_exists.mp ((hm.anchored i hi).opened c j hp hclosed)
  rw [hm.agrees i j d c hd hq] at hd
  have hlive := ((href.wired i hi).writers c j).mpr hd
  rw [hclosed] at hlive
  cases hlive

section
variable (hjoined : M.Joined) (h : Fleet.QuietRun M t F) (hstop : ¬ F.Able M)
include hjoined h hstop

/-- In a fleet that has stopped every node has a writer for every other. -/
theorem Fleet.QuietRun.writer (hi : i < M.cluster.n) {j : Nat} (hj : j < M.cluster.n)
    (hij : i ≠ j) : ∃ c, (F.hosts i).peerWriters.get? j = some c := by
  have hw := (h.refines hinj hgen hK hM).wired i hi
  have hwj := (h.refines hinj hgen hK hM).wired j hj
  have hm := h.moored hinj hgen hK hM
  by_contra hnone
  -- a connection to the other node that may become the writer is not waited for
  have hstuck : ∀ c, M.peer c i = some j →
      (∀ d, (F.hosts j).peerWriters.get? i = some d → d = c) → False := by
    intro c hp hcon
    cases hc : (F.hosts i).conns c with
    | handshaking => exact hstop (able_greet hi hp hc)
    | keyed p =>
      cases (hw.known c p (Or.inl hc)).1.symm.trans hp
      exact hstop (able_publish hi hc hcon)
    | live p =>
      cases (hw.known c p (Or.inr hc)).1.symm.trans hp
      exact hnone ⟨c, (hw.writers c j).mp hc⟩
    | closed => exact hnone (Option.isSome_iff_exists.mp ((hm.anchored i hi).opened c j hp hc))
  cases hpeer : (F.hosts j).peerWriters.get? i with
  | none =>
    obtain ⟨c, hc⟩ := hjoined i hi j hj hij
    exact hstuck c hc (fun d hd => by rw [hpeer] at hd; cases hd)
  | some d =>
    have hlink := (hM.peer (hwj.known d i (Or.inr ((hwj.writers d i).mpr hpeer))).1).2.2
    exact hstuck d hlink (fun e he => Option.some.inj (he.symm.trans hpeer))

/-- In a fleet that has stopped all nodes have begun. -/
theorem Fleet.QuietRun.begun (hi : i < M.cluster.n) :
    (F.hosts i).task = some (F.system M i) := by
  cases htask : (F.hosts i).task with
  | some m => simp [Fleet.system, htask]
  | none =>
    refine (hstop (able_begin hi htask ?_)).elim
    have hsize := EntryMap.length_le_size (m := (F.hosts i).peerWriters)
      (List.nodup_range.erase i (l := List.range M.cluster.n)) (fun p hp => by
        obtain ⟨hpi, hp⟩ := List.nodup_range.mem_erase_iff.mp hp
        obtain ⟨c, hc⟩ := h.writer hinj hgen hK hM hjoined hstop hi (List.mem_range.mp hp)
          (Ne.symm hpi)
        simp [hc])
    simpa [List.length_erase_of_mem, hi] using hsize

/-- In a fleet that has stopped a node that has emptied its inbox has taken all that
was sent to it. -/
theorem Fleet.QuietRun.heard {msg : Wire C} (hi : i < M.cluster.n)
    (hp : M.cluster.Posted (F.system M).replicas i msg) (hbox : (F.hosts i).inbox = []) :
    .message msg ∈ F.taken i := by
  classical
  obtain ⟨j, hj, hji, hsent⟩ := hp
  obtain ⟨e, he, hl⟩ : ∃ e ∈ (F.system M j).replica.effects, e.letterTo i = some msg := by
    rcases hsent with hsent | hsent
    · exact ⟨_, hsent, rfl⟩
    · exact ⟨_, hsent, by simp [Effect.letterTo]⟩
  have href := h.refines hinj hgen hK hM
  obtain rfl : msg.declared = j := (reach_addressed (href.reach.machine j) e he).declared hl
  have hwritten : 0 < F.written i msg := by
    refine List.count_pos_iff.mpr (List.mem_filterMap.mpr ⟨e, ?_, hl⟩)
    simpa [Host.effects, h.begun hinj hgen hK hM hjoined hstop hj.1] using he
  have hunsent : F.unsent i msg = 0 := by
    refine List.count_eq_zero_of_not_mem (fun hm => ?_)
    obtain ⟨e, he, hl⟩ := List.mem_filterMap.mp hm
    rcases letterTo_cases hl with rfl | rfl
    · exact hstop (able_send he rfl)
    · exact hstop (able_send he rfl)
  have hwires : F.onWires M i msg = 0 := by
    refine Finset.sum_eq_zero (fun c _ => ?_)
    split
    · rename_i hp
      have hback := (hM.peer hp).2.2
      refine List.count_eq_zero_of_not_mem (fun hm => hstop ?_)
      obtain ⟨hwriter, _⟩ := h.unread hinj hgen hK hM hi hback hm
      obtain ⟨d, hd⟩ := h.writer hinj hgen hK hM hjoined hstop hi hj.1 hji.symm
      rw [(h.moored hinj hgen hK hM).agrees i _ d c hd hwriter] at hd
      exact able_arrive hi hback hm (((href.wired i hi).writers c _).mpr hd)
    · rfl
  have hcopies := h.copies hinj hgen hK hM hi hj.1 hji.symm
  have htaken : 0 < ((F.taken i).filterMap Event.wire).count msg := by
    simp only [Fleet.arrived, hbox, List.map_nil, List.count_nil] at hcopies
    omega
  obtain ⟨ev, hev, hw⟩ := List.mem_filterMap.mp (List.count_pos_iff.mp htaken)
  exact wire_eq_some.mp hw ▸ hev

/-- A node that waits and is not finished can take what is due. -/
theorem Fleet.QuietRun.consumes (hw : WellFormed M.cluster.workload)
    (hsums : ∀ i, M.cluster.Honest i → SumsFit (M.cluster.wiring i)) (hi : i < M.cluster.n)
    (hidle : (F.system M i).todo = [])
    (hrunning : ¬ finished (M.cluster.wiring i) (F.system M i).replica) (ev : Event C)
    (hpost : ∀ msg, ev = .message msg → M.cluster.Posted (F.system M).replicas i msg)
    (htimer : ∀ v, ev = .timer v → v < (F.system M i).replica.rs.view) :
    ∃ r, (F.system M i).consume (F.hosts i).peerKeys.get? (M.cluster.wiring i) ev =
      some ⟨r, passOrder⟩ := by
  have hhonest := hM.honest hi
  obtain ⟨r, hran⟩ := calm_event_runs hinj hgen hK hw (hsums i hhonest)
    (h.calm hinj hgen hK hM) hhonest ev hpost htimer
  have hkeys := ((h.refines hinj hgen hK hM).wired i hi).peerKeys
    (by rw [h.begun hinj hgen hK hM hjoined hstop hi]; rfl)
  rw [hkeys]
  exact ⟨r, consume_some hidle hrunning hran⟩

/-- A fleet that has stopped has nothing left to do for its cluster. -/
theorem Fleet.QuietRun.spent (hacyc : Acyclic C) (hw : WellFormed M.cluster.workload)
    (hroots : ∀ i, M.cluster.Honest i → RootsChain (M.cluster.wiring i))
    (hsums : ∀ i, M.cluster.Honest i → SumsFit (M.cluster.wiring i)) :
    M.cluster.Spent F.taken (F.system M) := by
  have hcalm := h.calm hinj hgen hK hM
  have hbegun := fun i (hi : i < M.cluster.n) => h.begun hinj hgen hK hM hjoined hstop hi
  have hidle : ∀ i, M.cluster.Honest i → (F.system M i).todo = [] := by
    intro i hi
    cases htodo : (F.system M i).todo with
    | nil => rfl
    | cons rule rest =>
      obtain ⟨r, hran⟩ := calm_rule_runs hinj hgen hacyc hK hw hroots hcalm hi .asStored rule
      exact (hstop (able_rule hi.1 (hbegun i hi.1) htodo hran)).elim
  have hconsumes := fun i (hi : M.cluster.Honest i) hrunning =>
    h.consumes hinj hgen hK hM hjoined hstop hw hsums hi.1 (hidle i hi) hrunning
  refine ⟨hidle, ?_, ?_, ?_⟩
  · intro i hi hrunning msg hp
    refine h.heard hinj hgen hK hM hjoined hstop hi.1 hp ?_
    cases hbox : (F.hosts i).inbox with
    | nil => rfl
    | cons entry rest =>
      obtain ⟨r, hc⟩ := hconsumes i hi hrunning (.message entry.2) (by
        rintro _ ⟨⟩
        exact (h.refines hinj hgen hK hM).inbox i entry (by simp [hbox])) nofun
      exact (hstop (able_receive hi.1 (hbegun i hi.1) hbox hc)).elim
  · intro i hi hrunning
    by_contra hq
    obtain ⟨r, hc⟩ := hconsumes i hi hrunning (.validated 0) nofun nofun
    exact hstop (able_validated hi.1 (hbegun i hi.1) hq hc)
  · intro i hi hrunning v ms harmed hlate
    refine (h.prompt hinj hgen hK hM).1.woken (hbegun i hi.1) harmed (fun ms hs => ?_)
    obtain ⟨r, hc⟩ := hconsumes i hi hrunning (.timer v) nofun (by
      rintro _ ⟨⟩
      exact hlate)
    exact hstop (able_fire hi.1 (hbegun i hi.1) hs hlate hc)

end

theorem Fleet.QuietRun.progress (hacyc : Acyclic C) (hw : WellFormed M.cluster.workload)
    (hroots : ∀ i, M.cluster.Honest i → RootsChain (M.cluster.wiring i))
    (hsums : ∀ i, M.cluster.Honest i → SumsFit (M.cluster.wiring i)) (hjoined : M.Joined)
    (h : Fleet.QuietRun M t F) :
    F.Able M ∨ ∀ i < M.cluster.n, ∃ m, (F.hosts i).task = some m ∧
      finished (M.cluster.wiring i) m.replica := by
  by_cases hstop : F.Able M
  · exact Or.inl hstop
  · have hspent := h.spent hinj hgen hK hM hjoined hstop hacyc hw hroots hsums
    have hdone := hspent.completes hinj hgen hK (h.calm hinj hgen hK hM)
    exact Or.inr (fun i hi => ⟨_, h.begun hinj hgen hK hM hjoined hstop hi,
      hdone i (hM.honest hi)⟩)

end
end
end ZkStf
