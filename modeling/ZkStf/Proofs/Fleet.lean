import ZkStf.Model.Fleet
import ZkStf.Proofs.CalmRuns
import ZkStf.Proofs.Identity

namespace ZkStf
open ZkStf.Basis
open Relation (ReflTransGen)
variable {C : Crypto}

/-- A mesh of honest nodes: everyone sends its own key, and links are between two
nodes of the cluster. -/
structure Mesh.Sound (M : Mesh C) : Prop where
  free : M.cluster.byz = ∅
  keys : ∀ i < M.cluster.n, C.keyOfBytes (M.pubkey i) = some (M.cluster.key i)
  links : ∀ link ∈ M.links, link.1 < M.cluster.n ∧ link.2 < M.cluster.n ∧ link.1 ≠ link.2

/-- What the tables of a node say about the others. -/
structure Wired (M : Mesh C) (i : Nat) (h : Host C) : Prop where
  keys : ∀ p key, h.peerKeys.get? p = some key → p < M.cluster.n ∧ key = M.cluster.key p
  own : (h.peerKeys.get? i).isSome
  known : ∀ c p, h.conns c = .keyed p ∨ h.conns c = .live p →
    M.peer c i = some p ∧ (h.peerKeys.get? p).isSome
  writers : ∀ c p, h.conns c = .live p ↔ h.peerWriters.get? p = some c
  ready : h.task.isSome → ∀ p < M.cluster.n, (h.peerKeys.get? p).isSome

section
variable {M : Mesh C} {h h' : Host C} {w : Wiring C} {i j c n : Nat}

theorem Mesh.peer_lt {c j : Nat} (hp : M.peer c i = some j) : c < M.links.length := by
  obtain ⟨_, hlink, _⟩ := Option.bind_eq_some_iff.mp hp
  exact (List.getElem?_eq_some_iff.mp hlink).1

theorem Mesh.Sound.peer (hM : M.Sound) (hp : M.peer c i = some j) :
    j < M.cluster.n ∧ j ≠ i ∧ M.peer c j = some i := by
  obtain ⟨link, hlink, hp⟩ := Option.bind_eq_some_iff.mp hp
  obtain ⟨h1, h2, hne⟩ := hM.links link (List.mem_of_getElem? hlink)
  split at hp
  · rename_i hi
    cases hp
    subst i
    refine ⟨h2, hne.symm, ?_⟩
    simp [Mesh.peer, hlink, hne]
  · split at hp
    · rename_i hi
      cases hp
      subst i
      refine ⟨h1, hne, ?_⟩
      simp [Mesh.peer, hlink]
    · cases hp

theorem Wired.boot (hi : i < M.cluster.n) : Wired M i (.boot i (M.cluster.key i)) where
  keys p key hk := by
    simp only [Host.boot, EntryMap.get?_insert] at hk
    split at hk
    · subst p
      cases hk
      exact ⟨hi, rfl⟩
    · cases hk
  own := by simp [Host.boot]
  known c p hc := by rcases hc with hc | hc <;> cases hc
  writers c p := by simp [Host.boot, EntryMap.empty, EntryMap.get?]
  ready ht := by cases ht

theorem Wired.not_writer (hw : Wired M i h) (hc : ∀ p, h.conns c ≠ .live p) (p : Nat) :
    h.peerWriters.get? p ≠ some c :=
  fun hp => hc p ((hw.writers c p).mpr hp)

theorem Mesh.Sound.greet (hM : M.Sound) (hj : j < M.cluster.n) (h : Host C) (c : Nat) :
    h.greet c (.hello j (M.pubkey j)) =
      { h with peerKeys := h.peerKeys.insert j (M.cluster.key j) }.withConn c (.keyed j) := by
  simp [Host.greet, handshake, hM.keys j hj]

theorem Wired.greet (hw : Wired M i h) (hM : M.Sound) (hp : M.peer c i = some j)
    (hc : h.conns c = .handshaking) : Wired M i (h.greet c (.hello j (M.pubkey j))) := by
  obtain ⟨hj, _, _⟩ := hM.peer hp
  have hkeys : ∀ p, (h.peerKeys.get? p).isSome →
      ((h.peerKeys.insert j (M.cluster.key j)).get? p).isSome :=
    fun p hp => EntryMap.isSome_insert.mpr (Or.inr hp)
  have hidle := hw.not_writer (c := c) (by simp [hc])
  rw [hM.greet hj]
  refine ⟨?_, hkeys i hw.own, ?_, ?_, fun ht p hp => hkeys p (hw.ready ht p hp)⟩
  · intro p key hk
    simp only [Host.withConn, EntryMap.get?_insert] at hk
    split at hk
    · subst p
      cases hk
      exact ⟨hj, rfl⟩
    · exact hw.keys p key hk
  · intro d p hd
    simp only [Host.withConn, Function.update_apply] at hd ⊢
    split at hd
    · subst d
      obtain rfl : j = p := by simpa using hd
      exact ⟨hp, by simp⟩
    · exact (hw.known d p hd).imp_right (hkeys p)
  · intro d p
    simp only [Host.withConn, Function.update_apply]
    split
    · subst d
      simp [hidle p]
    · exact hw.writers d p

theorem Wired.drop (hw : Wired M i h) (hc : ∀ p, h.conns c ≠ .live p) :
    Wired M i (h.withConn c .closed) := by
  refine ⟨hw.keys, hw.own, ?_, ?_, hw.ready⟩
  · intro d p hd
    simp only [Host.withConn, Function.update_apply] at hd
    split at hd
    · rcases hd with hd | hd <;> cases hd
    · exact hw.known d p hd
  · intro d p
    simp only [Host.withConn, Function.update_apply]
    split
    · subst d
      simp [hw.not_writer hc p]
    · exact hw.writers d p

theorem Wired.publish (hw : Wired M i h) {p : Nat} (hc : h.conns c = .keyed p) :
    Wired M i (h.publish c p) := by
  have hnot : ∀ q, h.conns c ≠ .live q := by simp [hc]
  unfold Host.publish
  split
  · exact hw.drop hnot
  · rename_i hnone
    refine ⟨hw.keys, hw.own, ?_, ?_, hw.ready⟩
    · intro d q hd
      simp only [Host.withConn, Function.update_apply] at hd
      split at hd
      · subst d
        obtain rfl : p = q := by simpa using hd
        exact hw.known c p (Or.inl hc)
      · exact hw.known d q hd
    · intro d q
      have hidle := hw.not_writer hnot q
      have hwriter := hw.writers d q
      simp only [Host.withConn, Function.update_apply, EntryMap.get?_insert]
      by_cases hd : d = c <;> by_cases hq : q = p
      · simp [hd, hq]
      · have hq' : ¬ p = q := fun he => hq he.symm
        simp [hd, hq, hq', hidle]
      · subst q
        have hd' : ¬ c = d := fun he => hd he.symm
        have hfree : h.peerWriters.get? p = none := Option.not_isSome_iff_eq_none.mp hnone
        simpa [hd, hd', hfree] using hwriter
      · simpa [hd, hq] using hwriter

theorem Wired.readClosed (hw : Wired M i h) {p : Nat} (hc : h.conns c = .live p) :
    Wired M i (h.readClosed c p) := by
  have hmine := (hw.writers c p).mp hc
  refine ⟨hw.keys, hw.own, ?_, ?_, hw.ready⟩
  · intro d q hd
    simp only [Host.readClosed, Host.withConn, Function.update_apply] at hd
    split at hd
    · rcases hd with hd | hd <;> cases hd
    · exact hw.known d q hd
  · intro d q
    have hwriter := hw.writers d q
    simp only [Host.readClosed, Host.withConn, Function.update_apply, EntryMap.get?_erase]
    by_cases hd : d = c <;> by_cases hq : q = p
    · simp [hd, hq]
    · have hq' : ¬ p = q := fun he => hq he.symm
      subst d
      have hother : h.peerWriters.get? q ≠ some c := by simpa [hc, hq'] using hwriter
      simp [hq, hother]
    · subst q
      have hd' : ¬ c = d := fun he => hd he.symm
      simpa [hd, hmine, hd'] using hwriter
    · simpa [hd, hq] using hwriter

/-- As many writers as there are other nodes is a writer for each. -/
theorem Wired.all_writers (hw : Wired M i h) (hM : M.Sound)
    (hall : M.cluster.n - 1 ≤ h.peerWriters.size) {p : Nat} (hp : p < M.cluster.n)
    (hpi : p ≠ i) : (h.peerWriters.get? p).isSome := by
  have hothers : ∀ q, (h.peerWriters.get? q).isSome → q ∈ (List.range M.cluster.n).erase i := by
    intro q hq
    obtain ⟨c, hc⟩ := Option.isSome_iff_exists.mp hq
    obtain ⟨hlt, hne, _⟩ := hM.peer (hw.known c q (Or.inr ((hw.writers c q).mpr hc))).1
    exact (List.mem_erase_of_ne hne).mpr (List.mem_range.mpr hlt)
  refine EntryMap.isSome_of_size ?_ hothers ((List.mem_erase_of_ne hpi).mpr (List.mem_range.mpr hp))
  have hi := (hw.keys i _ (Option.get_mem hw.own)).1
  rw [List.length_erase_of_mem (List.mem_range.mpr hi), List.length_range]
  exact hall

theorem Wired.begin (hw : Wired M i h) (hM : M.Sound)
    (hall : M.cluster.n - 1 ≤ h.peerWriters.size) {p : Nat} (hp : p < M.cluster.n) :
    (h.peerKeys.get? p).isSome := by
  by_cases hpi : p = i
  · rw [hpi]
    exact hw.own
  obtain ⟨c, hc⟩ := Option.isSome_iff_exists.mp (hw.all_writers hM hall hp hpi)
  exact (hw.known c p (Or.inr ((hw.writers c p).mpr hc))).2

end

/-- What the connection tasks of a node may do next. -/
inductive Relinks (quiet : Prop) (M : Mesh C) (i : Nat) (h : Host C) : Host C → Prop
  | greet (c j : Nat) (peer : M.peer c i = some j) (waits : h.conns c = .handshaking) :
      Relinks quiet M i h (h.greet c (.hello j (M.pubkey j)))
  | publish (c p : Nat) (keyed : h.conns c = .keyed p) : Relinks quiet M i h (h.publish c p)
  | fail (c : Nat) (waits : h.conns c = .handshaking) (loud : ¬ quiet) :
      Relinks quiet M i h (h.withConn c .closed)
  | close (c p : Nat) (live : h.conns c = .live p) (loud : ¬ quiet) :
      Relinks quiet M i h (h.readClosed c p)

/-- What it takes for a node to take an event: where it comes from, and what is
left of the spawned tasks and of the inbox. -/
inductive Fleet.Takes (quiet : Prop) (F : Fleet C) (i : Nat) :
    Option (Event C) → List (Effect C) → List (Nat × Wire C) → Prop
  | rule : Takes quiet F i none (F.spawned i) (F.hosts i).inbox
  | message (c : Nat) (msg : Wire C) (rest : List (Nat × Wire C))
      (first : (F.hosts i).inbox = (c, msg) :: rest) :
      Takes quiet F i (some (.message msg)) (F.spawned i) rest
  | timer (k view ms : Nat) (armed : (F.spawned i)[k]? = some (.armTimer view ms))
      (late : quiet → ∀ m, (F.hosts i).task = some m → view < m.replica.rs.view) :
      Takes quiet F i (some (.timer view)) ((F.spawned i).eraseIdx k) (F.hosts i).inbox
  | answer (asked : (F.hosts i).valReqs ≠ []) :
      Takes quiet F i (some (.validated 0)) (F.spawned i) (F.hosts i).inbox

/-- The ways a fleet goes on. -/
inductive Fleet.Step (quiet : Prop) (M : Mesh C) (F : Fleet C) : Fleet C → Prop
  | link (i : Nat) (h : Host C) (inRange : i < M.cluster.n)
      (change : Relinks quiet M i (F.hosts i) h)
      (concurs : quiet → ∀ p c, h.peerWriters.get? p = some c →
        (F.hosts i).peerWriters.get? p = some c ∨
          ∀ d, (F.hosts p).peerWriters.get? i = some d → d = c) :
      Step quiet M F { F with hosts := Function.update F.hosts i h }
  | begin (i : Nat) (inRange : i < M.cluster.n) (waiting : (F.hosts i).task = none)
      (connected : M.cluster.n - 1 ≤ (F.hosts i).peerWriters.size) :
      Step quiet M F { F with
        hosts := Function.update F.hosts i
          { F.hosts i with task := some (.start (M.cluster.wiring i) M.cluster.n) }
        spawned := Function.update F.spawned i (F.spawned i ++
          (Machine.start (M.cluster.wiring i) M.cluster.n).replica.effects.filter Effect.spawns) }
  | take (i : Nat) (ev : Option (Event C)) (m m' : Machine C) (new tasks : List (Effect C))
      (inbox : List (Nat × Wire C)) (inRange : i < M.cluster.n) (task : (F.hosts i).task = some m)
      (source : F.Takes quiet i ev tasks inbox)
      (step : Machine.Step (F.hosts i).peerKeys.get? (M.cluster.wiring i) ev m m')
      (bounded : ¬ Wraps m.replica m'.replica)
      (effects : m'.replica.effects = m.replica.effects ++ new) :
      Step quiet M F { F with
        hosts := Function.update F.hosts i { F.hosts i with inbox := inbox, task := some m' }
        spawned := Function.update F.spawned i (tasks ++ new.filter Effect.spawns)
        taken := Function.update F.taken i (F.taken i ++ ev.toList) }
  | send (i k : Nat) (e : Effect C) (waits : (F.spawned i)[k]? = some e) (sends : e.isSend = true) :
      Step quiet M F ((F.finish i k).post i e)
  | arrive (i c j p : Nat) (msg : Wire C) (rest : List (Wire C)) (inRange : i < M.cluster.n)
      (peer : M.peer c i = some j) (first : F.wires j c = msg :: rest)
      (live : (F.hosts i).conns c = .live p) :
      Step quiet M F { F with
        hosts := Function.update F.hosts i ((F.hosts i).forward c msg)
        wires := Function.update F.wires j (Function.update (F.wires j) c rest) }

section
variable {quiet : Prop} {M : Mesh C} {F F' : Fleet C} {i : Nat}

theorem Relinks.same {h h' : Host C} (hr : Relinks quiet M i h h') :
    h'.task = h.task ∧ h'.inbox = h.inbox := by
  cases hr with
  | greet c j => exact greet_task h c (.hello j (M.pubkey j))
  | publish c p =>
    unfold Host.publish
    split <;> exact ⟨rfl, rfl⟩
  | _ => exact ⟨rfl, rfl⟩

theorem Relinks.wired {h h' : Host C} (hr : Relinks quiet M i h h') (hM : M.Sound)
    (hw : Wired M i h) : Wired M i h' := by
  cases hr with
  | greet c j hp hc => exact hw.greet hM hp hc
  | publish c p hc => exact hw.publish hc
  | fail c hc => exact hw.drop (by simp [hc])
  | close c p hc => exact hw.readClosed hc

theorem link_settle {h : Host C} (hi : i < M.cluster.n)
    (hr : Relinks quiet M i (F.hosts i) h)
    (hcon : quiet → ∀ p c, h.peerWriters.get? p = some c →
      (F.hosts i).peerWriters.get? p = some c ∨
        ∀ d, (F.hosts p).peerWriters.get? i = some d → d = c) :
    Fleet.Step quiet M F (F.settle i h []) := by
  have heff : h.effects = (F.hosts i).effects := by
    unfold Host.effects
    rw [hr.same.1]
  simpa [Fleet.settle, heff] using Fleet.Step.link i h hi hr hcon

theorem greet_writers (h : Host C) (c : Nat) (reply : Wire C) :
    (h.greet c reply).peerWriters = h.peerWriters := by
  unfold Host.greet
  split
  · rfl
  · split <;> rfl

/-- A connection that is published becomes the writer of a peer that has none. -/
theorem publish_writers {h : Host C} {c p q d : Nat}
    (hq : (h.publish c p).peerWriters.get? q = some d) :
    h.peerWriters.get? q = some d ∨ q = p ∧ d = c ∧ h.peerWriters.get? p = none := by
  unfold Host.publish at hq
  split at hq
  · exact Or.inl hq
  · rename_i hnone
    simp only [Host.withConn, EntryMap.get?_insert] at hq
    split at hq
    · cases hq
      exact Or.inr ⟨by assumption, rfl, Option.not_isSome_iff_eq_none.mp hnone⟩
    · exact Or.inl hq

theorem move_eq_some {a : Act C} {evs : List (Event C)} (h : F.move M i a evs = some F') :
    i < M.cluster.n ∧ ∃ h, (F.hosts i).act (M.cluster.wiring i) M.cluster.n a = some h ∧
      F' = F.settle i h evs := by
  unfold Fleet.move at h
  split at h
  · obtain ⟨host, ha, rfl⟩ := Option.map_eq_some_iff.mp h
    exact ⟨by assumption, host, ha, rfl⟩
  · cases h

/-- A node's own step, with the effects it adds. -/
theorem take_settle {m m' : Machine C} {tasks : List (Effect C)} {inbox : List (Nat × Wire C)}
    {ev : Option (Event C)} (hi : i < M.cluster.n) (ht : (F.hosts i).task = some m)
    (hsrc : F.Takes quiet i ev tasks inbox)
    (hstep : Machine.Step (F.hosts i).peerKeys.get? (M.cluster.wiring i) ev m m')
    (hw : ¬ Wraps m.replica m'.replica) :
    Fleet.Step quiet M F ({ F with spawned := Function.update F.spawned i tasks }.settle i
      { F.hosts i with inbox := inbox, task := some m' } ev.toList) := by
  obtain ⟨new, hnew⟩ : ∃ new, m'.replica.effects = m.replica.effects ++ new := by
    have hm : Moves (F.hosts i).peerKeys.get? (fun _ => True) (M.cluster.wiring i) m.replica
      m'.replica := step_moves hstep hw (fun _ _ => trivial)
    obtain ⟨new, hnew⟩ := moves_invariant (P := fun r => m.replica.effects <+: r.effects)
      (fun _ _ h hm => h.trans hm.effects_grow) hm List.prefix_rfl
    exact ⟨new, hnew.symm⟩
  have hdrop : (m.replica.effects ++ new).drop m.replica.effects.length = new := by simp
  have h := Fleet.Step.take i ev m m' new tasks inbox hi ht hsrc hstep hw hnew
  simpa [Fleet.settle, Host.effects, ht, hnew, hdrop] using h

theorem begin_ready {h h' : Host C} {w : Wiring C} {n : Nat} (ha : h.act w n .begin = some h') :
    h.task = none ∧ n - 1 ≤ h.peerWriters.size := by
  unfold Host.act at ha
  dsimp only at ha
  split at ha
  · rename_i hready
    exact hready.imp_left Option.isNone_iff_eq_none.mp
  · cases ha

theorem frame_live {h h' : Host C} {w : Wiring C} {n c : Nat} {msg : Wire C}
    (ha : h.act w n (.frame c msg) = some h') : ∃ p, h.conns c = .live p := by
  unfold Host.act at ha
  dsimp only at ha
  split at ha
  · rename_i p hlive
    exact ⟨p, hlive⟩
  · cases ha

/-- A node that goes on in its view or to a higher one does not take the fleet past the
bound. -/
theorem Fleet.bounded_task {G : Fleet C} {evs : List (Event C)} {host : Host C} {m m' : Machine C}
    (hw : ¬ F.PassesMax (G.settle i host evs)) (ht : (F.hosts i).task = some m)
    (ht' : host.task = some m') : ¬ Wraps m.replica m'.replica :=
  fun hwraps => hw ⟨i, m, m', ht, by simpa [Fleet.settle] using ht', hwraps⟩

/-- An act of a node leaves its consensus task alone or makes a step of it. -/
theorem host_steps {h h' : Host C} {w : Wiring C} {n : Nat} {a : Act C} {m m' : Machine C}
    (ha : h.act w n a = some h') (ht : h.task = some m) (ht' : h'.task = some m') :
    m' = m ∨ ∃ ev, Machine.Step h.peerKeys.get? w ev m m' := by
  have hsame : h'.task = h.task → m' = m := fun he =>
    Option.some.inj (ht'.symm.trans (he.trans ht))
  have hconsumed : ∀ {ev : Event C} {x : Machine C},
      h.task.bind (·.consume h.peerKeys.get? w ev) = some x → h'.task = some x →
      ∃ ev, Machine.Step h.peerKeys.get? w ev m m' := by
    intro ev x hx hx'
    rw [ht] at hx
    cases ht'.symm.trans hx'
    exact ⟨_, consume_step hx⟩
  cases a with
  | greet c reply =>
    obtain ⟨_, rfl⟩ := act_greet ha
    exact Or.inl (hsame (greet_task h c reply).1)
  | publish c =>
    obtain ⟨p, _, rfl⟩ := act_publish ha
    refine Or.inl (hsame ?_)
    unfold Host.publish
    split <;> rfl
  | frame c msg =>
    cases act_frame ha
    exact Or.inl (hsame rfl)
  | readClosed c =>
    rcases act_readClosed ha with ⟨_, rfl⟩ | ⟨p, _, rfl⟩
    · exact Or.inl (hsame rfl)
    · exact Or.inl (hsame rfl)
  | begin =>
    rw [(begin_ready ha).1] at ht
    cases ht
  | receive =>
    obtain ⟨_, _, _, _, _, _, hm, hran, rfl⟩ := act_receive ha
    exact Or.inr (hconsumed (by rw [hm]; exact hran) rfl)
  | timer view =>
    obtain ⟨x, hx, rfl⟩ := Option.map_eq_some_iff.mp ha
    exact Or.inr (hconsumed hx rfl)
  | validated k =>
    obtain ⟨x, hx, rfl⟩ := Option.map_eq_some_iff.mp ha
    exact Or.inr (hconsumed hx rfl)
  | rule ord =>
    obtain ⟨x, hx, rfl⟩ := Option.map_eq_some_iff.mp ha
    rw [ht] at hx
    cases ht'
    exact Or.inr ⟨none, advance_step hx⟩

/-- No view passes `u64::MAX` by an act of a node whose steps keep it in its range. -/
theorem move_bounded {G : Fleet C} {a : Act C} {evs : List (Event C)}
    (hb : ∀ i < M.cluster.n, ∀ m m' keys ev, (F.hosts i).task = some m →
      Machine.Step keys (M.cluster.wiring i) ev m m' → ¬ Wraps m.replica m'.replica)
    (h : G.move M i a evs = some F') (hG : G.hosts = F.hosts) : ¬ F.PassesMax F' := by
  rintro ⟨j, m, m', ht, ht', hwraps⟩
  obtain ⟨hi, host, ha, rfl⟩ := move_eq_some h
  have hkept : ¬ Wraps m.replica m.replica := fun hw => by
    have hmax := hw.1
    have hzero := hw.2
    omega
  by_cases hij : j = i
  · subst j
    simp only [Fleet.settle, Function.update_self] at ht'
    rw [hG] at ha
    rcases host_steps ha ht ht' with rfl | ⟨ev, hstep⟩
    · exact hkept hwraps
    · exact hb i hi m m' _ ev ht hstep hwraps
  · simp only [Fleet.settle, Function.update_of_ne hij, hG] at ht'
    cases ht.symm.trans ht'
    exact hkept hwraps

theorem act_bounded {a : FleetAct}
    (hb : ∀ i < M.cluster.n, ∀ m m' keys ev, (F.hosts i).task = some m →
      Machine.Step keys (M.cluster.wiring i) ev m m' → ¬ Wraps m.replica m'.replica)
    (h : F.act M a = some F') : ¬ F.PassesMax F' := by
  cases a with
  | greet i c =>
    obtain ⟨j, _, h⟩ := Option.bind_eq_some_iff.mp h
    exact move_bounded hb h rfl
  | receive i =>
    simp only [Fleet.act] at h
    split at h
    · cases h
    · exact move_bounded hb h rfl
  | validated i =>
    simp only [Fleet.act] at h
    split at h
    · cases h
    · exact move_bounded hb h rfl
  | fire i k =>
    simp only [Fleet.act] at h
    split at h
    · exact move_bounded hb h rfl
    · cases h
  | send i k =>
    simp only [Fleet.act] at h
    split at h
    · split at h
      · cases h
        rintro ⟨j, m, m', ht, ht', hwraps⟩
        cases ht.symm.trans ht'
        have hmax := hwraps.1
        have hzero := hwraps.2
        omega
      · cases h
    · cases h
  | arrive i c =>
    obtain ⟨j, _, h⟩ := Option.bind_eq_some_iff.mp h
    split at h
    · cases h
    · exact move_bounded hb h rfl
  | _ => exact move_bounded hb h rfl

theorem act_step {a : FleetAct} (hq : quiet → F.Quiet a) (hc : quiet → F.Concurs a)
    (h : F.act M a = some F') (hw : ¬ F.PassesMax F') : Fleet.Step quiet M F F' := by
  cases a with
  | greet i c =>
    obtain ⟨j, hp, h⟩ := Option.bind_eq_some_iff.mp h
    obtain ⟨hi, host, ha, rfl⟩ := move_eq_some h
    obtain ⟨hwait, rfl⟩ := act_greet ha
    refine link_settle hi (.greet c j hp hwait) (fun _ p d hd => Or.inl ?_)
    rwa [greet_writers] at hd
  | publish i c =>
    obtain ⟨hi, host, ha, rfl⟩ := move_eq_some h
    obtain ⟨p, hkeyed, rfl⟩ := act_publish ha
    refine link_settle hi (.publish c p hkeyed) (fun hquiet q d hd => ?_)
    rcases publish_writers hd with hold | ⟨rfl, rfl, hnone⟩
    · exact Or.inl hold
    · exact Or.inr (fun d' hd' => hc hquiet q d' hkeyed hnone hd')
  | readClosed i c =>
    obtain ⟨hi, host, ha, rfl⟩ := move_eq_some h
    rcases act_readClosed ha with ⟨hwait, rfl⟩ | ⟨p, hlive, rfl⟩
    · exact link_settle hi (.fail c hwait hq) (fun hquiet => (hq hquiet).elim)
    · exact link_settle hi (.close c p hlive hq) (fun hquiet => (hq hquiet).elim)
  | begin i =>
    obtain ⟨hi, host, ha, rfl⟩ := move_eq_some h
    obtain ⟨hwait, hready⟩ := begin_ready ha
    cases act_begin ha
    simpa [Fleet.settle, Host.effects, hwait] using Fleet.Step.begin i hi hwait hready
  | rule i ord =>
    obtain ⟨hi, host, ha, rfl⟩ := move_eq_some h
    obtain ⟨m', hm, rfl⟩ := Option.map_eq_some_iff.mp ha
    obtain ⟨m, ht, hran⟩ := Option.bind_eq_some_iff.mp hm
    simpa using take_settle hi ht .rule (advance_step hran) (Fleet.bounded_task hw ht rfl)
  | receive i =>
    simp only [Fleet.act] at h
    split at h
    · cases h
    · rename_i c msg rest hbox
      obtain ⟨hi, host, ha, rfl⟩ := move_eq_some h
      obtain ⟨_, _, _, m, m', hbox', ht, hran, rfl⟩ := act_receive ha
      cases hbox.symm.trans hbox'
      simpa using take_settle hi ht (.message c msg rest hbox) (consume_step hran)
        (Fleet.bounded_task hw ht rfl)
  | validated i =>
    simp only [Fleet.act] at h
    split at h
    · cases h
    · rename_i hasked
      obtain ⟨hi, host, ha, rfl⟩ := move_eq_some h
      obtain ⟨m', hm, rfl⟩ := Option.map_eq_some_iff.mp ha
      obtain ⟨m, ht, hran⟩ := Option.bind_eq_some_iff.mp hm
      simpa using take_settle hi ht (.answer hasked) (consume_step hran)
        (Fleet.bounded_task hw ht rfl)
  | fire i k =>
    simp only [Fleet.act] at h
    split at h
    · rename_i view ms harmed
      obtain ⟨hi, host, ha, rfl⟩ := move_eq_some h
      obtain ⟨m', hm, rfl⟩ := Option.map_eq_some_iff.mp ha
      obtain ⟨m, ht, hran⟩ := Option.bind_eq_some_iff.mp hm
      exact take_settle (F := F) hi ht
        (.timer k view ms harmed (fun h m hm => hq h view ms m harmed hm)) (consume_step hran)
        (Fleet.bounded_task hw ht rfl)
    · cases h
  | send i k =>
    simp only [Fleet.act] at h
    split at h
    · rename_i e hwaits
      split at h
      · rename_i hsends
        cases h
        exact .send i k e hwaits hsends
      · cases h
    · cases h
  | arrive i c =>
    obtain ⟨j, hp, h⟩ := Option.bind_eq_some_iff.mp h
    split at h
    · cases h
    · rename_i msg rest hfirst
      obtain ⟨hi, host, ha, rfl⟩ := move_eq_some h
      obtain ⟨p, hlive⟩ := frame_live ha
      cases act_frame ha
      simpa [Fleet.settle, Host.effects, Host.forward] using
        Fleet.Step.arrive i c j p msg rest hi hp hfirst hlive

end

/-- The cluster that a fleet makes up. A node that still waits for its peers is at
the start of its protocol. -/
def Fleet.system (M : Mesh C) (F : Fleet C) : System C :=
  fun i => (F.hosts i).task.getD (.start (M.cluster.wiring i) M.cluster.n)

/-- How the fleet stands for the cluster: what is on its way was sent, and the
nodes have come where they are by steps of the cluster. -/
structure Fleet.Refines (M : Mesh C) (F : Fleet C) : Prop where
  wired : ∀ i < M.cluster.n, Wired M i (F.hosts i)
  spawned : ∀ i, ∀ e ∈ F.spawned i, i < M.cluster.n ∧ e ∈ (F.system M i).replica.effects
  wires : ∀ i c, ∀ msg ∈ F.wires i c, ∃ j e, i < M.cluster.n ∧ M.peer c i = some j ∧
    e ∈ (F.system M i).replica.effects ∧ e.letterTo j = some msg
  inbox : ∀ i, ∀ entry ∈ (F.hosts i).inbox,
    M.cluster.Posted (F.system M).replicas i entry.2
  reach : System.Reach M.cluster M.cluster.Posted (F.system M)

section
variable {quiet : Prop} {M : Mesh C} {F F' : Fleet C} {i j : Nat}

theorem letterTo_cases {e : Effect C} {msg : Wire C} (h : e.letterTo j = some msg) :
    e = .broadcast msg ∨ e = .sendTo j msg := by
  cases e with
  | broadcast msg' =>
    cases h
    exact Or.inl rfl
  | sendTo peer msg' =>
    simp only [Effect.letterTo] at h
    split at h
    · cases h
      exact Or.inr (by congr)
    · cases h
  | _ => cases h

theorem Mesh.Sound.honest (hM : M.Sound) (hi : i < M.cluster.n) : M.cluster.Honest i :=
  ⟨hi, by simp [hM.free]⟩

theorem Mesh.Sound.posted (hM : M.Sound) {rs : Nat → Replica C} {e : Effect C} {msg : Wire C}
    (hj : j < M.cluster.n) (hji : j ≠ i) (he : e ∈ (rs j).effects)
    (hl : e.letterTo i = some msg) : M.cluster.Posted rs i msg := by
  refine ⟨j, hM.honest hj, hji, ?_⟩
  rcases letterTo_cases hl with rfl | rfl
  · exact Or.inl he
  · exact Or.inr he

theorem update_all {β : Type} {P : Nat → β → Prop} {f : Nat → β} {b : β} (hb : P i b) {j : Nat}
    (hj : P j (f j)) : P j (Function.update f i b j) := by
  rw [Function.update_apply]
  split
  · subst j
    exact hb
  · exact hj

theorem system_same {h : Host C} (hh : F'.hosts = Function.update F.hosts i h)
    (ht : h.task = (F.hosts i).task) : F'.system M = F.system M := by
  funext j
  have htask : (F'.hosts j).task = (F.hosts j).task := by
    rw [hh]
    exact update_all (P := fun j (h : Host C) => h.task = (F.hosts j).task) ht rfl
  rw [Fleet.system, htask, Fleet.system]

theorem system_task {h : Host C} {m : Machine C} (hh : F'.hosts = Function.update F.hosts i h)
    (ht : h.task = some m) : F'.system M = Function.update (F.system M) i m := by
  funext j
  by_cases hj : j = i
  · subst j
    simp [Fleet.system, hh, ht]
  · simp [Fleet.system, hh, hj]

/-- Once it has begun, a node goes by the true keys. -/
theorem Wired.peerKeys {h : Host C} (hw : Wired M i h) (ht : h.task.isSome) :
    h.peerKeys.get? = M.cluster.peerKeys := by
  funext p
  unfold Cluster.peerKeys
  by_cases hp : p < M.cluster.n
  · obtain ⟨key, hk⟩ := Option.isSome_iff_exists.mp (hw.ready ht p hp)
    rw [if_pos hp, hk, (hw.keys p key hk).2]
  · rw [if_neg hp]
    cases hk : h.peerKeys.get? p with
    | none => rfl
    | some key => exact absurd (hw.keys p key hk).1 hp

theorem Fleet.Refines.boot (M : Mesh C) : Fleet.Refines M (.boot M) where
  wired i hi := .boot hi
  spawned _ _ he := by cases he
  wires _ _ _ hm := by cases hm
  inbox _ _ he := by cases he
  reach := .start

/-- What was sent stays sent: only what is new has to be looked at. -/
theorem Fleet.Refines.next (h : F.Refines M)
    (hg : ∀ j, (F.system M j).replica.effects <+: (F'.system M j).replica.effects)
    (hreach : System.Reach M.cluster M.cluster.Posted (F'.system M))
    (hwired : ∀ j < M.cluster.n, Wired M j (F.hosts j) → Wired M j (F'.hosts j))
    (hspawned : ∀ j, ∀ e ∈ F'.spawned j, e ∈ F.spawned j ∨
      (j < M.cluster.n ∧ e ∈ (F'.system M j).replica.effects))
    (hwires : ∀ j c, ∀ msg ∈ F'.wires j c, msg ∈ F.wires j c ∨ ∃ p, ∃ e ∈ F.spawned j,
      M.peer c j = some p ∧ e.letterTo p = some msg)
    (hinbox : ∀ j, ∀ entry ∈ (F'.hosts j).inbox, entry ∈ (F.hosts j).inbox ∨
      M.cluster.Posted (F.system M).replicas j entry.2) : F'.Refines M where
  wired j hj := hwired j hj (h.wired j hj)
  spawned j e he := by
    rcases hspawned j e he with he | he
    · exact (h.spawned j e he).imp_right (fun hmem => (hg j).subset hmem)
    · exact he
  wires j c msg hm := by
    rcases hwires j c msg hm with hm | ⟨p, e, he, hp, hl⟩
    · obtain ⟨p, e, hj, hp, he, hl⟩ := h.wires j c msg hm
      exact ⟨p, e, hj, hp, (hg j).subset he, hl⟩
    · obtain ⟨hj, hmem⟩ := h.spawned j e he
      exact ⟨p, e, hj, hp, (hg j).subset hmem, hl⟩
  inbox j entry he := by
    have hp := (hinbox j entry he).elim (h.inbox j entry) id
    exact M.cluster.posted_growing _ _ hg j entry.2 hp
  reach := hreach

/-- The node's next step is one of the cluster. -/
theorem Fleet.Refines.moves (hM : M.Sound) (h : F.Refines M) (hi : i < M.cluster.n)
    {ev : Option (Event C)} {m m' : Machine C} {tasks : List (Effect C)}
    {inbox : List (Nat × Wire C)} (htask : (F.hosts i).task = some m)
    (hsrc : F.Takes quiet i ev tasks inbox)
    (hstep : Machine.Step (F.hosts i).peerKeys.get? (M.cluster.wiring i) ev m m')
    (hw : ¬ Wraps m.replica m'.replica) :
    System.Step M.cluster M.cluster.Posted (F.system M) (Function.update (F.system M) i m') := by
  have hm : F.system M i = m := by simp [Fleet.system, htask]
  rw [(h.wired i hi).peerKeys (by rw [htask]; rfl), ← hm] at hstep
  refine .move _ i ev m' (hM.honest hi) ?_ hstep (hm ▸ hw)
  rintro msg rfl
  cases hsrc with
  | message c msg rest first => exact h.inbox i (c, msg) (by simp [first])

theorem Fleet.Refines.link (h : F.Refines M) {host : Host C}
    (hh : F'.hosts = Function.update F.hosts i host) (htask : host.task = (F.hosts i).task)
    (hwired : Wired M i (F.hosts i) → Wired M i host)
    (hinbox : ∀ entry ∈ host.inbox, entry ∈ (F.hosts i).inbox ∨
      M.cluster.Posted (F.system M).replicas i entry.2)
    (hspawned : F'.spawned = F.spawned)
    (hwires : ∀ j c, ∀ msg ∈ F'.wires j c, msg ∈ F.wires j c) : F'.Refines M := by
  have hsys : F'.system M = F.system M := system_same hh htask
  refine h.next ?_ (hsys ▸ h.reach) ?_ (fun _ _ he => Or.inl (hspawned ▸ he))
    (fun j c msg hm => Or.inl (hwires j c msg hm)) ?_
  · rw [hsys]
    exact fun _ => List.prefix_rfl
  · intro j hj
    rw [hh, Function.update_apply]
    split
    · subst j
      exact hwired
    · exact id
  · intro j
    rw [hh]
    exact update_all (P := fun j (host : Host C) => ∀ entry ∈ host.inbox,
      entry ∈ (F.hosts j).inbox ∨ M.cluster.Posted (F.system M).replicas j entry.2)
      hinbox (fun entry he => Or.inl he)

/-- A node goes on by itself, or starts to. -/
theorem Fleet.Refines.goes_on (h : F.Refines M) (hi : i < M.cluster.n) {m : Machine C}
    {inbox : List (Nat × Wire C)} {new tasks : List (Effect C)}
    (hh : F'.hosts = Function.update F.hosts i { F.hosts i with inbox := inbox, task := some m })
    (hreach : System.Reach M.cluster M.cluster.Posted (Function.update (F.system M) i m))
    (hg : (F.system M i).replica.effects <+: m.replica.effects)
    (hready : ∀ p < M.cluster.n, ((F.hosts i).peerKeys.get? p).isSome)
    (hinbox : inbox ⊆ (F.hosts i).inbox)
    (hspawned : F'.spawned = Function.update F.spawned i (tasks ++ new.filter Effect.spawns))
    (htasks : tasks ⊆ F.spawned i) (hnew : new ⊆ m.replica.effects)
    (hwires : F'.wires = F.wires) : F'.Refines M := by
  have hsys : F'.system M = Function.update (F.system M) i m := system_task hh rfl
  refine h.next ?_ (hsys ▸ hreach) ?_ ?_ (fun _ _ _ hm => Or.inl (hwires ▸ hm)) ?_
  · rw [hsys]
    intro j
    exact update_all (P := fun j (m : Machine C) =>
      (F.system M j).replica.effects <+: m.replica.effects) hg List.prefix_rfl
  · intro j hj hw
    have hold := h.wired i hi
    have hnow : Wired M i { F.hosts i with inbox := inbox, task := some m } :=
      ⟨hold.keys, hold.own, hold.known, hold.writers, fun _ => hready⟩
    rw [hh]
    exact update_all hnow hw
  · intro j e he
    rw [hspawned, Function.update_apply] at he
    split at he
    · subst j
      rcases List.mem_append.mp he with he | he
      · exact Or.inl (htasks he)
      · refine Or.inr ⟨hi, ?_⟩
        rw [hsys, Function.update_self]
        exact hnew (List.mem_of_mem_filter he)
    · exact Or.inl he
  · intro j entry he
    rw [hh, Function.update_apply] at he
    split at he
    · subst j
      exact Or.inl (hinbox he)
    · exact Or.inl he

theorem takes_subset {ev : Option (Event C)} {tasks : List (Effect C)}
    {inbox : List (Nat × Wire C)} (h : F.Takes quiet i ev tasks inbox) :
    tasks ⊆ F.spawned i ∧ inbox ⊆ (F.hosts i).inbox := by
  cases h with
  | message c msg rest first => exact ⟨fun _ h => h, by simp [first]⟩
  | timer k view ms armed => exact ⟨fun _ h => List.mem_of_mem_eraseIdx h, fun _ h => h⟩
  | _ => exact ⟨fun _ h => h, fun _ h => h⟩

theorem Fleet.Refines.step (hM : M.Sound) (h : F.Refines M) (hs : Fleet.Step quiet M F F') :
    F'.Refines M := by
  cases hs with
  | link i host hi hr _ =>
    obtain ⟨htask, hinbox⟩ := hr.same
    exact h.link rfl htask (hr.wired hM) (fun entry he => Or.inl (hinbox ▸ he)) rfl
      (fun _ _ _ hm => hm)
  | begin i hi hwait hready =>
    have hstart : F.system M i = .start (M.cluster.wiring i) M.cluster.n := by
      simp [Fleet.system, hwait]
    refine h.goes_on hi rfl ?_ ?_ (fun p => (h.wired i hi).begin hM hready) (fun _ h => h) rfl
      (fun _ h => h) (fun _ h => h) rfl
    · rw [← hstart, Function.update_eq_self]
      exact h.reach
    · rw [hstart]
  | take i ev m m' new tasks inbox hi htask hsrc hstep hw hnew =>
    have hm : F.system M i = m := by simp [Fleet.system, htask]
    obtain ⟨htasks, hinbox⟩ := takes_subset hsrc
    refine h.goes_on hi rfl (h.reach.step (h.moves hM hi htask hsrc hstep hw)) ?_
      (fun p hp => (h.wired i hi).ready (by rw [htask]; rfl) p hp) hinbox rfl htasks ?_ rfl
    · rw [hm, hnew]
      exact List.prefix_append _ _
    · rw [hnew]
      exact List.subset_append_right _ _
  | send i k e hwaits hsends =>
    have hmem := List.mem_of_getElem? hwaits
    refine h.next (fun _ => List.prefix_rfl) h.reach (fun _ _ hw => hw) ?_ ?_
      (fun _ _ he => Or.inl he)
    · intro j e' he'
      exact Or.inl (update_all (P := fun j es => e' ∈ es → e' ∈ F.spawned j)
        List.mem_of_mem_eraseIdx id he')
    · intro j c msg
      refine update_all (P := fun j (ws : Nat → List (Wire C)) => msg ∈ ws c → msg ∈ F.wires j c ∨
        ∃ p, ∃ e ∈ F.spawned j, M.peer c j = some p ∧ e.letterTo p = some msg) ?_ Or.inl
      intro hm
      rcases List.mem_append.mp hm with hm | hm
      · exact Or.inl hm
      · obtain ⟨⟨p, c'⟩, hwriter, hl⟩ := List.mem_filterMap.mp hm
        have hw := h.wired i (h.spawned i e hmem).1
        have hlive := (hw.writers c' p).mpr (EntryMap.get?_eq_some.mpr hwriter)
        split at hl
        · rename_i hc
          exact Or.inr ⟨p, e, hmem, hc ▸ (hw.known c' p (Or.inr hlive)).1, hl⟩
        · cases hl
  | arrive i c j p msg rest hi hpeer hfirst hlive =>
    obtain ⟨hj, hji, hback⟩ := hM.peer hpeer
    refine h.link rfl rfl (fun hw => ⟨hw.keys, hw.own, hw.known, hw.writers, hw.ready⟩) ?_ rfl ?_
    · intro entry he
      rcases List.mem_append.mp he with he | he
      · exact Or.inl he
      · cases List.mem_singleton.mp he
        obtain ⟨q, e, _, hq, he, hl⟩ := h.wires j c msg (by simp [hfirst])
        cases hback.symm.trans hq
        exact Or.inr (hM.posted hj hji he hl)
    · intro a d
      refine update_all (P := fun a (ws : Nat → List (Wire C)) =>
        ∀ msg ∈ ws d, msg ∈ F.wires a d) ?_ (fun _ h => h)
      refine update_all (P := fun d (ws : List (Wire C)) =>
        ∀ msg ∈ ws, msg ∈ F.wires j d) ?_ (fun _ h => h)
      intro msg' hm
      rw [hfirst]
      exact List.mem_cons_of_mem _ hm

theorem Fleet.Reach.refines (hM : M.Sound) (h : Fleet.Reach M F) : F.Refines M := by
  induction h with
  | boot => exact .boot M
  | act a _ ha hw ih => exact ih.step hM (act_step False.elim False.elim ha hw)

end
end ZkStf
