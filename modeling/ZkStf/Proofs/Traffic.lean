import ZkStf.Basis.Counting
import ZkStf.Proofs.Outbox
import ZkStf.Proofs.SafeProposal

namespace ZkStf
open ZkStf.Basis
variable {C : Crypto}

def Wire.view : Wire C → Nat
  | .hello _ _ => 0
  | .proposal view _ _ _ => view
  | .phaseQc _ view _ _ => view
  | .vote _ view _ _ _ => view
  | .newView view _ _ => view

def Effect.broadcastIn (v : Nat) : Effect C → Bool
  | .broadcast msg => msg.view == v
  | _ => false

def Effect.sendIn (v : Nat) : Effect C → Bool
  | .sendTo _ msg => msg.view == v
  | _ => false

/-- The broadcasts of a view that the honest nodes have made. -/
def Cluster.broadcasts (K : Cluster C) (s : System C) (v : Nat) : Nat :=
  ∑ i ∈ Finset.range K.n \ K.byz, (s i).replica.effects.countP (Effect.broadcastIn v)

/-- The messages of a view that the honest nodes have sent to single nodes. -/
def Cluster.sends (K : Cluster C) (s : System C) (v : Nat) : Nat :=
  ∑ i ∈ Finset.range K.n \ K.byz, (s i).replica.effects.countP (Effect.sendIn v)

def Slot.broadcastIn (v : Nat) : Slot → Bool
  | .proposal u => u == v
  | .announcement _ u => u == v
  | _ => false

def Slot.sendIn (v : Nat) : Slot → Bool
  | .vote _ u => u == v
  | .newView u => u == v
  | _ => false

/-- The slots of a view that the node `i` may take, by who leads this view and the
next one. -/
def Slot.vacant (leader next i v : Nat) : List Slot :=
  (if i = leader then
    [.proposal v, .announcement .preCommit v, .announcement .commit v, .announcement .decide v]
  else [.vote .prepare v, .vote .preCommit v, .vote .commit v]) ++
    if i = next then [] else [.newView v]

section
variable {w : Wiring C} {r : Replica C} {v : Nat}

theorem Effect.Addressed.broadcastIn {e : Effect C} (h : e.Addressed w r) :
    e.broadcastIn v = (e.slot.map (Slot.broadcastIn v)).getD false := by
  cases e with
  | broadcast msg =>
    cases msg with
    | proposal => rfl
    | phaseQc => rfl
    | _ => exact h.elim
  | sendTo peer msg => cases msg <;> rfl
  | _ => rfl

theorem Effect.Addressed.sendIn {e : Effect C} (h : e.Addressed w r) :
    e.sendIn v = (e.slot.map (Slot.sendIn v)).getD false := by
  cases e with
  | broadcast msg => cases msg <;> rfl
  | sendTo peer msg =>
    cases msg with
    | vote => rfl
    | newView => rfl
    | _ => exact h.elim
  | _ => rfl

/-- The slots of messages that a node has taken were open to it. -/
theorem Tidy.slot_vacant (ht : Tidy r) (ha : ∀ e ∈ r.effects, e.Addressed w r) {slot : Slot}
    (hs : slot ∈ r.slots) (hv : slot.broadcastIn v = true ∨ slot.sendIn v = true) :
    slot ∈ Slot.vacant (r.rs.leaderFor v) (r.rs.leaderFor (v + 1)) w.myId v := by
  have hmark := ht.marked slot hs
  obtain ⟨e, he, hslot⟩ := List.mem_filterMap.mp hs
  have haddr := ha e he
  cases e with
  | broadcast msg =>
    cases msg with
    | proposal u leaf high sender =>
      cases hslot
      obtain rfl : u = v := by simpa [Slot.broadcastIn, Slot.sendIn] using hv
      simp [Slot.vacant, haddr.2.1]
    | phaseQc ty u qc sender =>
      cases hslot
      obtain rfl : u = v := by simpa [Slot.broadcastIn, Slot.sendIn] using hv
      obtain ⟨p, rfl, _⟩ := hmark
      cases p <;> simp [Slot.vacant, haddr.2.1, announcedBy]
    | _ => exact haddr.elim
  | sendTo peer msg =>
    cases msg with
    | vote ty u nh voter sig =>
      cases hslot
      obtain rfl : u = v := by simpa [Slot.broadcastIn, Slot.sendIn] using hv
      obtain ⟨p, rfl, _⟩ := hmark
      obtain ⟨_, rfl, hother, _⟩ := haddr
      cases p <;> simp [Slot.vacant, hother.symm, msgTypeOf]
    | newView u justify sender =>
      cases hslot
      obtain rfl : u = v := by simpa [Slot.broadcastIn, Slot.sendIn] using hv
      obtain ⟨_, rfl, hother, _⟩ := haddr
      simp [Slot.vacant, hother.symm]
    | _ => exact haddr.elim
  | armTimer u ms =>
    cases hslot
    simp [Slot.broadcastIn, Slot.sendIn] at hv
  | _ => cases hslot

theorem Tidy.broadcasts_le (ht : Tidy r) (ha : ∀ e ∈ r.effects, e.Addressed w r) :
    r.effects.countP (Effect.broadcastIn v) ≤
      (Slot.vacant (r.rs.leaderFor v) (r.rs.leaderFor (v + 1)) w.myId v).countP
        (Slot.broadcastIn v) := by
  rw [List.countP_congr (fun e he => by rw [(ha e he).broadcastIn]), ← List.countP_filterMap]
  exact countP_le_of_nodup ht.once (fun slot hs hv => ht.slot_vacant ha hs (Or.inl hv))

theorem Tidy.sends_le (ht : Tidy r) (ha : ∀ e ∈ r.effects, e.Addressed w r) :
    r.effects.countP (Effect.sendIn v) ≤
      (Slot.vacant (r.rs.leaderFor v) (r.rs.leaderFor (v + 1)) w.myId v).countP
        (Slot.sendIn v) := by
  rw [List.countP_congr (fun e he => by rw [(ha e he).sendIn]), ← List.countP_filterMap]
  exact countP_le_of_nodup ht.once (fun slot hs hv => ht.slot_vacant ha hs (Or.inr hv))

theorem vacant_broadcasts (leader next i v : Nat) :
    (Slot.vacant leader next i v).countP (Slot.broadcastIn v) = if i = leader then 4 else 0 := by
  unfold Slot.vacant
  split <;> split <;> simp [Slot.broadcastIn]

theorem vacant_sends (leader next i v : Nat) :
    (Slot.vacant leader next i v).countP (Slot.sendIn v) =
      (if i = leader then 0 else 3) + if i = next then 0 else 1 := by
  unfold Slot.vacant
  split <;> split <;> simp [Slot.sendIn]

end

section
variable {K : Cluster C} {net : Delivery C} {s : System C}

theorem reach_leader (hr : System.Reach K net s) (i v : Nat) :
    (s i).replica.rs.leaderFor v = K.leader v := by
  have hsize : (s i).replica.rs.n = K.n := by
    refine reach_invariant (P := fun r => r.rs.n = K.n) ?_ ?_ (hr.machine i)
    · rw [startProtocol, enterNewView_eq]
      rfl
    · intro keys r r' h hm
      rw [hm.size, h]
  simp only [ReplicaState.leaderFor, Cluster.leader, hsize]

theorem Cluster.leader_lt (K : Cluster C) (hn : 0 < K.n) (v : Nat) : K.leader v < K.n := by
  unfold Cluster.leader
  split
  · exact hn
  · exact Nat.mod_lt _ hn

/-- What the honest nodes have done is at most what all nodes may do. -/
theorem honest_sum_le {f g : Nat → Nat} (h : ∀ i, f i ≤ g i) :
    ∑ i ∈ Finset.range K.n \ K.byz, f i ≤ ∑ i ∈ Finset.range K.n, g i :=
  (Finset.sum_le_sum (fun i _ => h i)).trans
    (Finset.sum_le_sum_of_subset Finset.sdiff_subset)

/-- The protocol is linear in every view, whatever reaches the nodes: all the honest
ones together make at most four broadcasts, and send at most four messages to single
nodes for every node but one. -/
theorem views_cost_linear (hr : System.Reach K net s) (v : Nat) :
    K.broadcasts s v ≤ 4 ∧ K.sends s v ≤ 4 * (K.n - 1) := by
  rcases Nat.eq_zero_or_pos K.n with hn | hn
  · simp [Cluster.broadcasts, Cluster.sends, hn]
  constructor
  · calc K.broadcasts s v
        ≤ ∑ i ∈ Finset.range K.n, if i = K.leader v then 4 else 0 := by
          refine honest_sum_le (fun i => ?_)
          have hle := (reach_tidy (hr.machine i)).broadcasts_le (v := v)
            (reach_addressed (hr.machine i))
          rwa [reach_leader hr, reach_leader hr, vacant_broadcasts] at hle
      _ = 4 := by
          rw [sum_one_else (K.leader_lt hn v), Nat.mul_zero]
  · calc K.sends s v
        ≤ ∑ i ∈ Finset.range K.n, ((if i = K.leader v then 0 else 3) +
            if i = K.leader (v + 1) then 0 else 1) := by
          refine honest_sum_le (fun i => ?_)
          have hle := (reach_tidy (hr.machine i)).sends_le (v := v)
            (reach_addressed (hr.machine i))
          rwa [reach_leader hr, reach_leader hr, vacant_sends] at hle
      _ = 4 * (K.n - 1) := by
          rw [Finset.sum_add_distrib, sum_one_else (K.leader_lt hn v),
            sum_one_else (K.leader_lt hn (v + 1))]
          omega

/-- Node 0 has led view 1 to its decision. -/
theorem quartet_view_cost : ∃ s : System Quartet.crypto,
    System.Reach Quartet.cluster Quartet.cluster.Authentic s ∧
      Quartet.cluster.broadcasts s 1 = 4 ∧ Quartet.cluster.sends s 1 = 4 ∧
      Quartet.cluster.sends s 1 ≤ 4 * (4 - 1) := by
  have hplay : (System.play Quartet.cluster Quartet.cluster.Authentic Quartet.schedule
      (System.start Quartet.cluster)).any (fun s => decide
        (Quartet.cluster.broadcasts s 1 = 4 ∧ Quartet.cluster.sends s 1 = 4)) = true := by
    decide +kernel
  obtain ⟨s, hr, hc⟩ := play_exists hplay
  have hcost := of_decide_eq_true hc
  exact ⟨s, hr, hcost.1, hcost.2, (views_cost_linear hr 1).2⟩

end
end ZkStf
