import ZkStf.Proofs.FleetEnd

namespace ZkStf
open ZkStf.Basis
variable {C : Crypto}

/-- How far a connection has come, in acts of its task. -/
def Conn.progress : Conn → Nat
  | .handshaking => 0
  | .keyed _ => 1
  | .live _ => 2
  | .closed => 2

/-- What a node still has to do for the acts that are behind it: the rest of its
pass, and the messages it has yet to put on its connections. -/
def Fleet.owed (F : Fleet C) (i : Nat) : Nat :=
  ((F.hosts i).task.map (·.todo.length)).getD 0 + ((F.spawned i).filterMap Effect.sent).length

/-- What a node has done, and has bound itself to do. -/
def Fleet.earned (M : Mesh C) (F : Fleet C) (i : Nat) : Nat :=
  ∑ c ∈ Finset.range M.links.length, ((F.hosts i).conns c).progress +
    ((F.hosts i).task.map (fun _ => 11)).getD 0 +
    ((F.hosts i).effects.filterMap Effect.sent).length +
    (((F.taken i).filterMap Event.wire).length + (F.hosts i).inbox.length) +
    11 * (F.taken i).length

namespace Mesh
variable (M : Mesh C)

/-- The acts of a node at most: the steps of its connections, the messages it sends
and those that it gets, and the passes over its rules. -/
def actsPerNode : Nat :=
  2 * M.links.length + 11 + 9 * (M.cluster.numBlocks + 2) +
    M.cluster.n * (9 * (M.cluster.numBlocks + 2)) + 11 * M.cluster.maxEvents

def maxActs : Nat := M.cluster.n * M.actsPerNode

end Mesh

section
variable {quiet : Prop} {M : Mesh C} {F F' : Fleet C} {i t : Nat}

/-- A connection task takes its connection one step on. -/
theorem Relinks.conns {h h' : Host C} (hr : Relinks True M i h h') (hM : M.Sound)
    (hw : Wired M i h) : ∃ c x, c < M.links.length ∧ h'.conns = Function.update h.conns c x ∧
      x.progress = (h.conns c).progress + 1 := by
  cases hr with
  | greet c j hp hc =>
    rw [hM.greet (hM.peer hp).1]
    exact ⟨c, .keyed j, Mesh.peer_lt hp, rfl, by rw [hc]; rfl⟩
  | publish c p hc =>
    have hlt := Mesh.peer_lt (hw.known c p (Or.inl hc)).1
    unfold Host.publish
    split
    · exact ⟨c, .closed, hlt, rfl, by rw [hc]; rfl⟩
    · exact ⟨c, .live p, hlt, rfl, by rw [hc]; rfl⟩
  | fail c hc loud => exact (loud trivial).elim
  | close c p hc loud => exact (loud trivial).elim

theorem Fleet.Takes.sent {ev : Option (Event C)} {tasks : List (Effect C)}
    {inbox : List (Nat × Wire C)} (h : F.Takes quiet i ev tasks inbox) :
    (tasks.filterMap Effect.sent).length = ((F.spawned i).filterMap Effect.sent).length := by
  cases h with
  | timer k view ms armed =>
    simpa [Effect.sent] using (filterMap_eraseIdx_perm (f := Effect.sent) armed).length_eq
  | _ => rfl

theorem Fleet.Takes.kept {ev : Option (Event C)} {tasks : List (Effect C)}
    {inbox : List (Nat × Wire C)} (h : F.Takes quiet i ev tasks inbox) :
    ((F.taken i ++ ev.toList).filterMap Event.wire).length + inbox.length =
      ((F.taken i).filterMap Event.wire).length + (F.hosts i).inbox.length := by
  cases h with
  | message c msg rest first =>
    simp only [first, Option.toList_some, List.filterMap_append, List.filterMap_cons, Event.wire,
      List.filterMap_nil, List.length_append, List.length_cons, List.length_nil]
    omega
  | _ => simp [List.filterMap_cons, Event.wire]

theorem spawned_sent (new : List (Effect C)) :
    (new.filter Effect.spawns).filterMap Effect.sent = new.filterMap Effect.sent := by
  rw [List.filterMap_filter]
  refine List.filterMap_congr (fun e _ => ?_)
  cases e <;> rfl

/-- Every act of a quiet fleet is one more act for one of its nodes. -/
theorem Fleet.Step.pays (hM : M.Sound) (h : F.Refines M) (hs : Fleet.Step True M F F') :
    ∃ a < M.cluster.n, (∀ j ≠ a, F'.owed j = F.owed j ∧ F'.earned M j = F.earned M j) ∧
      F'.earned M a + F.owed a = F.earned M a + F'.owed a + 1 := by
  cases hs with
  | link a host ha hr hcon =>
    obtain ⟨htask, hinbox⟩ := hr.same
    obtain ⟨c, x, hc, hconns, hx⟩ := hr.conns hM (h.wired a ha)
    have hsum := sum_update (fun _ (x : Conn) => x.progress) (F.hosts a).conns hc x
    refine ⟨a, ha, fun j hj => by simp [Fleet.owed, Fleet.earned, hj], ?_⟩
    simp only [Fleet.owed, Fleet.earned, Function.update_self, Host.effects, htask, hinbox, hconns]
    omega
  | begin a ha hwait hready =>
    refine ⟨a, ha, fun j hj => by simp [Fleet.owed, Fleet.earned, hj], ?_⟩
    simp [Fleet.owed, Fleet.earned, Host.effects, hwait, spawned_sent, Machine.start, passOrder]
    omega
  | take a ev m m' new tasks inbox ha htask hsrc hstep hbound hnew =>
    have htodo := step_todo hstep
    have hsent := hsrc.sent
    have hkept := hsrc.kept
    refine ⟨a, ha, fun j hj => by simp [Fleet.owed, Fleet.earned, hj], ?_⟩
    simp only [Fleet.owed, Fleet.earned, Function.update_self, Host.effects, htask, hnew,
      Option.map_some, Option.getD_some, List.filterMap_append, List.length_append, spawned_sent,
      hsent] at hkept ⊢
    omega
  | send a k e hwaits hsends =>
    have ha := (h.spawned a e (List.mem_of_getElem? hwaits)).1
    have hgone := (filterMap_eraseIdx_perm (f := Effect.sent) hwaits).length_eq
    refine ⟨a, ha, fun j hj => by simp [Fleet.owed, Fleet.earned, Fleet.post, Fleet.finish, hj], ?_⟩
    have hone : e.sent.toList.length = 1 := by
      cases e with
      | broadcast => rfl
      | sendTo => rfl
      | _ => cases hsends
    simp only [Fleet.owed, Fleet.earned, Fleet.post, Fleet.finish, Function.update_self]
    rw [List.length_append, hone] at hgone
    omega
  | arrive a c j p first rest ha hp hfirst hlive =>
    refine ⟨a, ha, fun j hj => by simp [Fleet.owed, Fleet.earned, hj], ?_⟩
    simp [Fleet.owed, Fleet.earned, Host.forward, Host.effects]
    omega

theorem Conn.progress_le (x : Conn) : x.progress ≤ 2 := by
  cases x <;> simp [Conn.progress]

section
variable (hinj : Function.Injective (nodeHash (C := C)))
  (hgen : ∀ node : Node C, nodeHash node ≠ genesisHash C) (hK : M.cluster.Faultless)
  (hM : M.Sound)
include hinj hgen hK hM

theorem Fleet.QuietRun.accounts (h : Fleet.QuietRun M t F) :
    t + ∑ i ∈ Finset.range M.cluster.n, F.owed i =
      ∑ i ∈ Finset.range M.cluster.n, F.earned M i := by
  refine (quiet_invariant hinj hgen hK hM (P := fun t F =>
    t + ∑ i ∈ Finset.range M.cluster.n, F.owed i =
      ∑ i ∈ Finset.range M.cluster.n, F.earned M i) ?_ ?_ h).2
  · simp [Fleet.boot, Host.boot, Fleet.owed, Fleet.earned, Host.effects, Conn.progress]
  · intro t F F' href ih hs
    obtain ⟨b, hb, hother, hpays⟩ := hs.pays hM href
    have howed := sum_update (fun _ x => x) F.owed hb (F'.owed b)
    have hearned := sum_update (fun _ x => x) (F.earned M) hb (F'.earned M b)
    rw [← Function.eq_update_iff.mpr ⟨rfl, fun j hj => (hother j hj).1⟩] at howed
    rw [← Function.eq_update_iff.mpr ⟨rfl, fun j hj => (hother j hj).2⟩] at hearned
    omega

theorem Fleet.QuietRun.earned_le (h : Fleet.QuietRun M t F) (hi : i < M.cluster.n) :
    F.earned M i ≤ M.actsPerNode := by
  obtain ⟨hr, u, hprompt⟩ := h.prompt hinj hgen hK hM
  have hhonest := hM.honest hi
  have hsteady := (hprompt.calm hinj hgen hK).steady hinj hgen hK
  have hdiary := hprompt.diary hinj hgen hK hhonest
  have hconns : ∑ c ∈ Finset.range M.links.length, ((F.hosts i).conns c).progress ≤
      M.links.length * 2 := by
    simpa using Finset.sum_le_card_nsmul (Finset.range M.links.length) _ 2
      (fun c _ => ((F.hosts i).conns c).progress_le)
  have hbegun : ((F.hosts i).task.map (fun _ => 11)).getD 0 ≤ 11 := by
    cases (F.hosts i).task <;> simp
  have hsent : ((F.hosts i).effects.filterMap Effect.sent).length ≤
      9 * (M.cluster.numBlocks + 2) := by
    rcases Fleet.effects_cases M F i with hnone | heff
    · simp [hnone]
    · rw [heff]
      exact hsteady.sent_le hK hhonest
  have harrived : ((F.taken i).filterMap Event.wire).length + (F.hosts i).inbox.length ≤
      M.cluster.n * (9 * (M.cluster.numBlocks + 2)) := by
    have hposted : ∀ msg ∈ (F.taken i).filterMap Event.wire ++ (F.hosts i).inbox.map Prod.snd,
        M.cluster.Posted (F.system M).replicas i msg := by
      intro msg hm
      rcases List.mem_append.mp hm with hm | hm
      · exact hdiary.posted msg hm
      · obtain ⟨entry, he, rfl⟩ := List.mem_map.mp hm
        exact (hr.refines hM).inbox i entry he
    have hlength := (List.subperm_of_subset (hr.arrived_once hM i)
      (fun msg hm => posted_letters (hposted msg hm))).length_le
    rw [List.length_append, List.length_map] at hlength
    exact hlength.trans (hsteady.letters_le hK)
  have hevents := hdiary.length_le hsteady hK hhonest
  unfold Fleet.earned Mesh.actsPerNode
  omega

theorem Fleet.QuietRun.bounded (h : Fleet.QuietRun M t F) : t ≤ M.maxActs :=
  calc t ≤ t + ∑ i ∈ Finset.range M.cluster.n, F.owed i := Nat.le_add_right _ _
    _ = ∑ i ∈ Finset.range M.cluster.n, F.earned M i := h.accounts hinj hgen hK hM
    _ ≤ (Finset.range M.cluster.n).card • M.actsPerNode := Finset.sum_le_card_nsmul _ _ _
        (fun i hi => h.earned_le hinj hgen hK hM (Finset.mem_range.mp hi))
    _ = M.maxActs := by simp [Mesh.maxActs]

end
end

section
variable {K : Cluster C} {pubkey : Nat → List UInt8} {F : Fleet C} {t : Nat}

theorem mem_dialed {i j : Nat} :
    (i, j) ∈ (Mesh.dialed K pubkey).links ↔ i < K.n ∧ j < K.n ∧ j ≠ i := by
  simp [Mesh.dialed]

theorem dialed_sound (hfree : K.byz = ∅)
    (hkeys : ∀ i < K.n, C.keyOfBytes (pubkey i) = some (K.key i)) :
    (Mesh.dialed K pubkey).Sound where
  free := hfree
  keys := hkeys
  links := by
    rintro ⟨i, j⟩ hlink
    obtain ⟨hi, hj, hne⟩ := mem_dialed.mp hlink
    exact ⟨hi, hj, hne.symm⟩

theorem dialed_joined : (Mesh.dialed K pubkey).Joined := by
  intro i hi j hj hne
  have hlink : (i, j) ∈ (Mesh.dialed K pubkey).links := mem_dialed.mpr ⟨hi, hj, hne.symm⟩
  obtain ⟨c, hc⟩ := List.getElem?_of_mem hlink
  exact ⟨c, by simp [Mesh.peer, hc]⟩

/-- Nodes without faults that all dial each other get through their workload, from
their start on: if no stream ends, timers do not go off early and any two nodes keep
the same connection, they make a bounded number of acts in whatever order and do not
stop before every node has executed all blocks. Until then no message is lost: those
written and not arrived are yet to be sent, or on a connection that is not dropped. -/
theorem quiet_fleet_completes [DecidableEq C.Sig] (hinj : Function.Injective (nodeHash (C := C)))
    (hgen : ∀ node : Node C, nodeHash node ≠ genesisHash C) (hacyc : Acyclic C)
    (hK : K.Faultless) (hw : WellFormed K.workload)
    (hroots : ∀ i, K.Honest i → RootsChain (K.wiring i))
    (hsums : ∀ i, K.Honest i → SumsFit (K.wiring i))
    (hkeys : ∀ i < K.n, C.keyOfBytes (pubkey i) = some (K.key i))
    (h : Fleet.QuietRun (Mesh.dialed K pubkey) t F) :
    t ≤ (Mesh.dialed K pubkey).maxActs ∧
    (∀ i < K.n, ∀ msg : Wire C, msg.declared < K.n → i ≠ msg.declared →
      F.arrived i msg + F.onWires (Mesh.dialed K pubkey) i msg + F.unsent i msg =
        F.written i msg ∧
      ∀ c, (Mesh.dialed K pubkey).peer c i = some msg.declared →
        msg ∈ F.wires msg.declared c → (F.hosts i).conns c ≠ .closed) ∧
    (F.Able (Mesh.dialed K pubkey) ∨ ∀ i < K.n, ∃ m, (F.hosts i).task = some m ∧
      finished (K.wiring i) m.replica) := by
  have hM := dialed_sound hK.free hkeys
  refine ⟨h.bounded hinj hgen hK hM, fun i hi msg hj hne => ⟨?_, fun c hp hm => ?_⟩, ?_⟩
  · exact h.copies hinj hgen hK hM hi hj hne
  · exact (h.unread hinj hgen hK hM hi hp hm).2
  · exact h.progress hinj hgen hK hM hacyc hw hroots hsums dialed_joined

end

/-- Two nodes boot, dial each other, drop one of their two connections and get
through their three blocks. -/
theorem pair_fleet_completes : ∃ t ≤ (Mesh.dialed Pair.cluster Pair.mesh.pubkey).maxActs,
    ∃ F, Fleet.QuietRun (Mesh.dialed Pair.cluster Pair.mesh.pubkey) t F ∧
      ∀ i < 2, ∃ m, (F.hosts i).task = some m ∧ finished (Pair.cluster.wiring i) m.replica := by
  have hruns := fun t F (h : Fleet.QuietRun (Mesh.dialed Pair.cluster Pair.mesh.pubkey) t F) =>
    quiet_fleet_completes tabled_nodes_apart tabled_nodes_fresh Quartet.acyclic Pair.faultless
      Quartet.threeBlocks_wellFormed (fun i _ => Pair.roots_chain i)
      (fun i _ => Pair.sums_fit i) Pair.mesh_sound.keys h
  obtain ⟨t, F, hrun, hdone⟩ := bounded_run_ends
    (Fleet.QuietRun (Mesh.dialed Pair.cluster Pair.mesh.pubkey))
    (fun F => ∀ i < 2, ∃ m, (F.hosts i).task = some m ∧
      finished (Pair.cluster.wiring i) m.replica)
    (fun t F h => (hruns t F h).1) (fun t F h => (hruns t F h).2.2.symm.imp_right
      (fun ⟨a, hq, hc, ha⟩ => ⟨_, h.act a hq hc (Option.some_get ha).symm⟩)) .boot
  exact ⟨t, (hruns t F hrun).1, F, hrun, hdone⟩

end ZkStf
