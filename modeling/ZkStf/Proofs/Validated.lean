import ZkStf.Proofs.Checks

namespace ZkStf
open ZkStf.Basis
open ZkStf.Basis.Ballots
open Relation (ReflTransGen)
variable {C : Crypto}

/-- The replica held a positive verdict on the very node when it signed a
prepare vote for it in the view. -/
def Replica.Approved (r : Replica C) (view : Nat) (h : C.Hash) : Prop :=
  Effect.sign ⟨.prepare, view, h⟩ (some true) ∈ r.effects

section
variable {K : Cluster C} {rs : Nat → Replica C} {fit : Node C → Prop}

/-- Every ancestor of a certified node is certified, down to genesis. -/
theorem Sane.backed_ancestor (hs : Sane K rs) (hq : Intersecting K.Honest K.Quorum)
    (hinj : Function.Injective (nodeHash (C := C)))
    (hgen : ∀ node : Node C, nodeHash node ≠ genesisHash C) (hd : K.Diligent fit rs)
    {a b : C.Hash} (he : Extends a b) (ha : K.Backed rs a) (hb : b ≠ genesisHash C) :
    K.Backed rs b := by
  induction he using ReflTransGen.head_induction_on with
  | refl => exact ha
  | head hlink hrest ih =>
    obtain ⟨node, hn, hparent⟩ := hlink
    obtain ⟨node', _, hn', _, _, _, hback⟩ := hs.backed hq hinj hd ha
    cases hinj (hn.trans hn'.symm)
    rw [hparent] at hback
    rcases hback with rfl | hback
    · exact absurd (extends_genesis hgen hrest) hb
    · exact ih hback

/-- The honest members of a quorum number at least `n - 2 f`. -/
theorem honest_members (hf : K.byz.card ≤ K.faults) {q : Finset Nat} (hq : K.Quorum q) :
    K.n - 2 * K.faults ≤ (q \ K.byz).card ∧ ∀ j ∈ q \ K.byz, K.Honest j := by
  refine ⟨?_, ?_⟩
  · have hsize := Finset.le_card_sdiff K.byz q
    have hquorum := hq.2
    omega
  · intro j hj
    obtain ⟨hjq, hjb⟩ := Finset.mem_sdiff.mp hj
    exact ⟨Finset.mem_range.mp (hq.1 hjq), hjb⟩

/-- A certified node was approved by the honest part of a quorum, in one view. -/
theorem Sane.approved (hs : Sane K rs) (hq : Intersecting K.Honest K.Quorum)
    (hf : K.byz.card ≤ K.faults) (hd : K.Diligent fit rs) {h : C.Hash} (hb : K.Backed rs h) :
    ∃ view, ∃ q : Finset Nat, K.n - 2 * K.faults ≤ q.card ∧
      ∀ j ∈ q, K.Honest j ∧ (rs j).Approved view h := by
  obtain ⟨qc, hqc, rfl⟩ := hb
  obtain ⟨q, hquorum, hcast⟩ := hs.prepared hq hqc
  obtain ⟨hsize, hhonest⟩ := honest_members hf hquorum
  refine ⟨qc.view, q \ K.byz, hsize, ?_⟩
  intro j hj
  have hh := hhonest j hj
  obtain ⟨verdict, hsign⟩ := hcast j (Finset.mem_sdiff.mp hj).1 hh
  obtain ⟨rfl, _⟩ := (hd j hh).prepared _ _ verdict hsign
  exact ⟨hh, hsign⟩

theorem authentic_diligent (hr : System.Reach K K.Authentic s) :
    Sane K s.replicas ∧ K.Diligent (fun _ => True) s.replicas := by
  refine authentic_invariant (P := K.Diligent fun _ => True) K.authentic_growing
    (fun _ _ _ h => h) (diligent_start K) ?_ hr
  intro rs i r' hi hs _ hd hm
  exact diligent_move hd hs hi (fun _ _ _ _ _ => trivial) (fun _ _ _ _ _ => trivial) hm

end

/-- Only validated blocks are committed: a decided node and each of its
ancestors was approved by `n - 2 f` honest replicas in one view, and carries the
command of the block at its height. -/
theorem decided_nodes_validated {K : Cluster C} (hinj : Function.Injective (nodeHash (C := C)))
    (hgen : ∀ node : Node C, nodeHash node ≠ genesisHash C) (hf : K.byz.card ≤ K.faults)
    {s : System C} (hr : System.Reach K K.Authentic s) {i : Nat} (hi : K.Honest i)
    {d a : C.Hash} (hd : ((s i).replica.rs.decidedNodes.get? d).isSome) (he : Extends d a)
    (ha : a ≠ genesisHash C) :
    (∃ view, ∃ q : Finset Nat, K.n - 2 * K.faults ≤ q.card ∧
      ∀ j ∈ q, K.Honest j ∧ (s j).replica.Approved view a) ∧
    ∃ node block, nodeHash node = a ∧ K.workload.block node.height = .ok block ∧
      block.cmd = node.cmd := by
  obtain ⟨hs, hdil⟩ := authentic_diligent hr
  have hq := Cluster.intersecting hi hf
  obtain ⟨qc, _, hqc, hgood⟩ := (hs.holds i hi).decided d hd
  have hback := hs.backed_ancestor hq hinj hgen hdil he ⟨qc, hgood, hqc⟩ ha
  obtain ⟨node, block, hn, _, hblock, hcmd, _⟩ := hs.backed hq hinj hdil hback
  exact ⟨hs.approved hq hf hdil hback, node, block, hn, hblock, hcmd⟩

theorem quartet_validated : ∃ s : System Quartet.crypto,
    System.Reach Quartet.cluster Quartet.cluster.Authentic s ∧
      ((s 1).replica.rs.decidedNodes.get? (nodeHash Quartet.first)).isSome ∧
      (∃ view, ∃ q : Finset Nat, Quartet.cluster.n - 2 * Quartet.cluster.faults ≤ q.card ∧
        ∀ j ∈ q, Quartet.cluster.Honest j ∧
          (s j).replica.Approved view (nodeHash Quartet.first)) ∧
      ∃ node block, nodeHash node = nodeHash Quartet.first ∧
        Quartet.cluster.workload.block node.height = .ok block ∧ block.cmd = node.cmd := by
  have hplay : (System.play Quartet.cluster Quartet.cluster.Authentic Quartet.schedule
      (System.start Quartet.cluster)).any (fun s =>
        ((s 1).replica.rs.decidedNodes.get? (nodeHash Quartet.first)).isSome) = true := by
    decide +kernel
  obtain ⟨s, hr, hc⟩ := play_exists hplay
  exact ⟨s, hr, hc, decided_nodes_validated tabled_nodes_apart
    tabled_nodes_fresh (by decide) hr (i := 1) (by decide) hc .refl (tabled_fresh _)⟩

end ZkStf
