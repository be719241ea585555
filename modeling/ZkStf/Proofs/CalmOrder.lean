import ZkStf.Proofs.CalmChain
import ZkStf.Proofs.ExecutionChain
import ZkStf.Proofs.NoCrash

namespace ZkStf
open ZkStf.Basis
open ZkStf.Basis.Ballots
open Relation (ReflTransGen)
variable {C : Crypto}

/-! Two replicas without faults over a workload of three blocks. -/
namespace Pair

def cluster : Cluster Quartet.crypto :=
  { Quartet.threeBlocks with n := 2, small := by decide, byz := ∅ }

theorem faultless : cluster.Faultless where
  free := rfl
  signs := fun i d _ => tabled_verifies i d
  vets := by
    intro i _ height block _ req input out _ _ hran
    change (if _ then _ else _) = Except.ok out at hran
    split at hran
    · cases hran
    · cases hran
      rfl

theorem roots_chain (i : Nat) : RootsChain (cluster.wiring i) := nofun

/-- Each message is delivered once, and a timer of an earlier view wakes the
leader that has all it needs for the next one. -/
def cues : List (Nat × Cue) :=
  [(0, .pass), (0, .letter 1 0), (0, .answer), (1, .pass), (1, .letter 0 1), (1, .answer),
    (0, .letter 1 4), (1, .letter 0 4), (0, .letter 1 6), (1, .letter 0 6), (0, .letter 1 8),
    (0, .alarm 1), (1, .letter 0 8), (1, .letter 0 10), (0, .letter 1 11), (0, .answer),
    (1, .answer), (1, .letter 0 14), (0, .letter 1 14), (1, .letter 0 16), (0, .letter 1 16),
    (1, .letter 0 18), (0, .letter 1 18), (0, .letter 1 20), (0, .answer), (0, .alarm 2),
    (1, .letter 0 21), (1, .answer), (0, .letter 1 24), (1, .letter 0 24), (0, .letter 1 26),
    (1, .letter 0 26), (0, .letter 1 28), (1, .letter 0 28)]

end Pair

/-- The first blocks of a workload, by the hashes of their nodes. -/
def Workload.firstBlocks (wl : Workload C) (m : Nat) : List C.Hash :=
  (List.range m).map (fun k => nodeHash (wl.course k))

/-- The node has recorded the decision on the block of a height. -/
def Cluster.Decided (K : Cluster C) (r : Replica C) (k : Nat) : Prop :=
  (r.rs.decidedNodes.get? (nodeHash (K.workload.course k))).isSome

/-- How far a node of a calm run has come: it has recorded the decision of each
view it left, and executed the blocks in order, under decided ones only. -/
structure Marching (K : Cluster C) (r : Replica C) : Prop where
  recorded : ∀ v, 1 ≤ v → v < r.rs.view → K.Decided r (v - 1)
  executed : ∃ m : Nat, r.rs.lastExecutedHeight = m - 1 ∧
    r.executed = K.workload.firstBlocks m ∧
    ∀ k < m, (r.rs.validationResult (nodeHash (K.workload.course k))).isSome ∧
      ∃ top, k ≤ top ∧ top < K.numBlocks ∧ K.Decided r top

section
variable {K : Cluster C} {rs : Nat → Replica C} {i : Nat} {r' : Replica C}

theorem numBlocks_small (K : Cluster C) : K.numBlocks < 2 ^ 32 :=
  K.workload.manifest.numBlocks.toNat_lt

theorem course_inj (hinj : Function.Injective (nodeHash (C := C))) {wl : Workload C} {a b : Nat}
    (ha : a < 2 ^ 64) (hb : b < 2 ^ 64) (h : nodeHash (wl.course a) = nodeHash (wl.course b)) :
    a = b := by
  rw [← course_toNat wl ha, ← course_toNat wl hb, hinj h]

/-- The way back from a block of the workload passes the blocks before it. -/
theorem course_path (hinj : Function.Injective (nodeHash (C := C)))
    (hgen : ∀ node : Node C, nodeHash node ≠ genesisHash C) {wl : Workload C}
    {tree : EntryMap C.Hash (Node C)} (ht : ∀ h node, tree.get? h = some node → nodeHash node = h)
    {top : Nat} {h : C.Hash} (hp : ReflTransGen (TreeLink tree) (nodeHash (wl.course top)) h) :
    h = genesisHash C ∨ ∃ k ≤ top, h = nodeHash (wl.course k) := by
  induction hp with
  | refl => exact Or.inr ⟨top, le_rfl, rfl⟩
  | tail _ hlink ih =>
    obtain ⟨node, hget, rfl⟩ := hlink
    have hnode := ht _ node hget
    rcases ih with rfl | ⟨k, hk, rfl⟩
    · exact absurd hnode (hgen node)
    · obtain rfl := hinj hnode
      cases k with
      | zero => exact Or.inl rfl
      | succ k => exact Or.inr ⟨k, by omega, rfl⟩

theorem decided_on_course (hfree : K.byz = ∅) (hc : Candid K rs)
    (h : ∀ j, K.Honest j → Course K rs (rs j)) (hi : K.Honest i) {x : C.Hash}
    (hx : ((rs i).rs.decidedNodes.get? x).isSome) :
    ∃ k < K.numBlocks, x = nodeHash (K.workload.course k) := by
  obtain ⟨v, qc, rfl, ha⟩ := (h i hi).decided x hx
  obtain ⟨hone, hlast, hnode⟩ := announced_on_course hfree hc h hi ha
  exact ⟨v - 1, by omega, hnode⟩

theorem Move.verdict_keeps {keys : Nat → Option C.Key} {arrives : Wire C → Prop} {w : Wiring C}
    {r r' : Replica C} (hm : Move keys arrives w r r') {x : C.Hash}
    (h : (r.rs.validationResult x).isSome) : (r'.rs.validationResult x).isSome := by
  rcases hm.ledger_cases with hs | ⟨k, req, input, out, hk, hran, rfl⟩ |
    ⟨leafHash, node, block, input, _, _, _, _, rfl⟩ | ⟨nh, node, _, _, _, happ⟩
  · rw [hs.verdicts]
    exact h
  · simp only [withRs_rs, ingestValidation]
    rw [Function.update_apply]
    split
    · rfl
    · exact h
  · exact h
  · rw [(applyNode_frame happ).1]
    exact h

theorem Marching.deed (hinj : Function.Injective (nodeHash (C := C)))
    (hgen : ∀ node : Node C, nodeHash node ≠ genesisHash C) (hK : K.Faultless) (hc : Candid K rs)
    (h : ∀ j, K.Honest j → Course K rs (rs j)) (hi : K.Honest i) (hm : Marching K (rs i))
    (hd : Deed K.peerKeys (K.Posted rs i) False (K.wiring i) (rs i) r') : Marching K r' := by
  have hkeep : ∀ k, K.Decided (rs i) k → K.Decided r' k := fun k hk => hd.move.decided_mono hk
  constructor
  · intro v hone hlt
    by_cases hold : v < (rs i).rs.view
    · exact hkeep _ (hm.recorded v hone hold)
    obtain hsame | ⟨timeout, rfl⟩ := hd.move.view_cases
    · omega
    rw [enterNewView_view] at hlt
    obtain rfl : v = (rs i).rs.view := by omega
    cases hd.left (by rw [enterNewView_view]; omega) with
    | expired allowed => cases allowed
    | decided qc seen staged known pace =>
      obtain ⟨_, _, hnode⟩ := announced_on_course hK.free hc h hi ((h i hi).staged _ _ _ staged)
      rw [hnode] at known
      exact hkeep _ known
  · obtain ⟨m, hlast, hexec, hunder⟩ := hm.executed
    have hunder' : ∀ k < m, (r'.rs.validationResult (nodeHash (K.workload.course k))).isSome ∧
        ∃ top, k ≤ top ∧ top < K.numBlocks ∧ K.Decided r' top := by
      intro k hk
      obtain ⟨hvalid, top, hle, hlt, hdec⟩ := hunder k hk
      exact ⟨hd.move.verdict_keeps hvalid, top, hle, hlt, hkeep top hdec⟩
    rcases hd.move.execute_cases with ⟨hsame, hsame'⟩ | ⟨d, nh, node, hknown, hpath, hget, hnext,
      hvalid, hgrown, hlast'⟩
    · exact ⟨m, by rw [hsame', hlast], by rw [hsame, hexec], hunder'⟩
    have ht := (hc.sane.holds i hi).tree
    have hsmall := numBlocks_small K
    obtain ⟨k, hk, rfl⟩ := (h i hi).tree nh node hget
    obtain ⟨top, htop, rfl⟩ := decided_on_course hK.free hc h hi hknown
    have hnat : (K.workload.course k).height.toNat = k := course_toNat _ (by omega)
    rw [asI64_of_lt (by omega), hnat] at hnext hlast'
    obtain rfl : k = m := by omega
    obtain rfl := ht _ _ hget
    refine ⟨k + 1, by rw [hlast']; omega, ?_, ?_⟩
    · rw [hgrown, hexec, Workload.firstBlocks, Workload.firstBlocks, List.range_succ]
      simp
    · intro j hj
      obtain hj | rfl : j < k ∨ j = k := by omega
      · exact hunder' j hj
      · rcases course_path hinj hgen ht hpath with hroot | ⟨b, hb, hsame⟩
        · exact absurd hroot (hgen _)
        · rw [← course_inj hinj (by omega) (by omega) hsame] at hb
          exact ⟨hd.move.verdict_keeps (by rw [hvalid]; rfl), top, hb, htop, hkeep top hknown⟩

theorem Marching.start (w : Wiring C) (n : Nat) :
    Marching K (startProtocol w (bootReplica w n)) := by
  refine ⟨?_, 0, ?_, ?_, fun _ hk => absurd hk (by omega)⟩
  · intro v hone hlt
    rw [startProtocol, enterNewView_view] at hlt
    omega
  · rw [startProtocol, enterNewView_eq]
    rfl
  · rw [startProtocol, enterNewView_eq]
    simp only [Replica.executed]
    split <;> simp [bootReplica, Effect.executedHash, Workload.firstBlocks]

/-- What holds at every moment of a calm run. -/
structure Calmed (K : Cluster C) (rs : Nat → Replica C) : Prop where
  candid : Candid K rs
  course : ∀ i, K.Honest i → Course K rs (rs i)
  marching : ∀ i, K.Honest i → Marching K (rs i)

/-- Induction over the calm runs of a cluster without faults, with all that is
known of its nodes. -/
theorem calmed_invariant {P : (Nat → Replica C) → Prop}
    (hinj : Function.Injective (nodeHash (C := C)))
    (hgen : ∀ node : Node C, nodeHash node ≠ genesisHash C) (hK : K.Faultless)
    (h0 : P (fun i => startProtocol (K.wiring i) (bootReplica (K.wiring i) K.n)))
    (hs : ∀ rs i r', K.Honest i → Calmed K rs → P rs →
      Deed K.peerKeys (K.Posted rs i) False (K.wiring i) (rs i) r' →
      P (Function.update rs i r'))
    {log : Nat → List (Event C)} {s : System C} (hcalm : K.Calm log s) :
    Calmed K s.replicas ∧ P s.replicas := by
  obtain ⟨hc, h, hm, hp⟩ := course_invariant
    (P := fun rs => (∀ i, K.Honest i → Marching K (rs i)) ∧ P rs) hinj hK
    ⟨fun i _ => Marching.start (K.wiring i) K.n, h0⟩ (by
      rintro rs i r' hi hc h _ _ ⟨hm, hp⟩ hd
      refine ⟨?_, hs rs i r' hi ⟨hc, h, hm⟩ hp hd⟩
      intro j hj
      by_cases hji : j = i
      · subst j
        rw [Function.update_self]
        exact (hm i hi).deed hinj hgen hK hc h hi hd
      · rw [Function.update_of_ne hji]
        exact hm j hj) hcalm
  exact ⟨⟨hc, h, hm⟩, hp⟩

theorem Cluster.Calm.calmed (hinj : Function.Injective (nodeHash (C := C)))
    (hgen : ∀ node : Node C, nodeHash node ≠ genesisHash C) (hK : K.Faultless)
    {log : Nat → List (Event C)} {s : System C} (hcalm : K.Calm log s) :
    Calmed K s.replicas :=
  (calmed_invariant (P := fun _ => True) hinj hgen hK trivial
    (fun _ _ _ _ _ _ _ => trivial) hcalm).1

/-- A calm run takes one view per block. -/
theorem Calmed.view_le (h : Calmed K rs) (hfree : K.byz = ∅) (hi : K.Honest i) :
    (rs i).rs.view ≤ K.numBlocks + 1 := by
  by_cases hfirst : (rs i).rs.view ≤ 1
  · omega
  obtain ⟨qc, ha⟩ := (h.course i hi).left ((rs i).rs.view - 1) (by omega) (by omega)
  have hlast := (announced_on_course hfree h.candid h.course hi ha).2.1
  omega

theorem Marching.executed_first {r : Replica C} (h : Marching K r) :
    ∃ m ≤ K.numBlocks, r.rs.lastExecutedHeight = (m : Int) - 1 ∧
      r.executed = K.workload.firstBlocks m := by
  obtain ⟨m, hlast, hexec, hunder⟩ := h.executed
  refine ⟨m, ?_, hlast, hexec⟩
  rcases m with _ | m
  · omega
  · obtain ⟨_, top, hle, hlt, _⟩ := hunder m (by omega)
    omega

/-- In a calm run view `v` decides the block of height `v - 1`, and every node
executes the blocks of the workload one by one in their order. -/
theorem calm_blocks_in_order (hinj : Function.Injective (nodeHash (C := C)))
    (hgen : ∀ node : Node C, nodeHash node ≠ genesisHash C) (hK : K.Faultless)
    {log : Nat → List (Event C)} {s : System C} (hcalm : K.Calm log s) (hi : K.Honest i) :
    (∀ v qc, (s i).replica.rs.staged .commit v = some qc → 1 ≤ v ∧ v ≤ K.numBlocks ∧
      qc.nodeHash = nodeHash (K.workload.course (v - 1))) ∧
    (s i).replica.rs.view ≤ K.numBlocks + 1 ∧
    ∃ m ≤ K.numBlocks, (s i).replica.rs.lastExecutedHeight = (m : Int) - 1 ∧
      (s i).replica.executed = K.workload.firstBlocks m := by
  have h := hcalm.calmed hinj hgen hK
  refine ⟨?_, h.view_le hK.free hi, ?_⟩
  · intro v qc hs
    exact announced_on_course hK.free h.candid h.course hi ((h.course i hi).staged _ _ _ hs)
  · exact (h.marching i hi).executed_first

theorem pair_in_order : ∃ log s, Pair.cluster.Calm log s ∧
    (s 0).replica.rs.lastExecutedHeight = 1 ∧ (s 0).replica.rs.view ≤ 4 ∧
    (s 0).replica.executed = Pair.cluster.workload.firstBlocks 2 := by
  have hplay : (Pair.cluster.rehearse (Pair.cues.take 23) (System.start Pair.cluster)).any
      (fun s => decide ((s 0).replica.rs.lastExecutedHeight = 1)) = true := by
    decide +kernel
  obtain ⟨log, s, hcalm, hc⟩ := rehearse_exists hplay
  have hlast := of_decide_eq_true hc
  obtain ⟨_, hview, m, _, hm, hexec⟩ :=
    calm_blocks_in_order tabled_nodes_apart tabled_nodes_fresh Pair.faultless hcalm
      (i := 0) (by decide)
  obtain rfl : m = 2 := by omega
  exact ⟨log, s, hcalm, hlast, hview, hexec⟩

/-- What the post brings in a calm run can be handled. -/
theorem Calmed.handles (h : Calmed K rs) (hK : K.Faultless) {msg : Wire C}
    (hp : K.Posted rs i msg) : ¬ Crashing K.peerKeys (K.wiring i) (rs i) msg := by
  have hsmall := numBlocks_small K
  cases msg with
  | proposal v node justify sender =>
    rintro ⟨_, _, _, hheight⟩
    obtain ⟨hj, hsent⟩ := h.candid.sender hK.free hp rfl
    have hon := (h.course sender hj).proposals v node justify sender hsent
    have hfirst := hon.first
    have hlast := hon.last
    rw [hon.leaf, course_toNat _ (by omega)] at hheight
    change K.numBlocks ≤ v - 1 at hheight
    omega
  | newView v justify sender =>
    rintro ⟨_, hlarge⟩
    obtain ⟨j, hj, _, hsent | hsent⟩ := hp
    · exact h.candid.addressed j _ hsent
    · obtain ⟨_, _, _, hlt⟩ := h.candid.addressed j _ hsent
      have hle := h.view_le hK.free hj
      omega
  | _ => exact id

section
variable {log : Nat → List (Event C)} {s : System C}

theorem calm_rule_runs (hinj : Function.Injective (nodeHash (C := C)))
    (hgen : ∀ node : Node C, nodeHash node ≠ genesisHash C) (hacyc : Acyclic C) (hK : K.Faultless)
    (hw : WellFormed K.workload) (hroots : ∀ i, K.Honest i → RootsChain (K.wiring i))
    (hcalm : K.Calm log s) (hi : K.Honest i) (ord : Order) (rule : Rule) :
    ∃ r', rule.run (K.wiring i) ord (s i).replica = .ok r' := by
  have hreach := hcalm.reach.machine i
  have hview := (hcalm.calmed hinj hgen hK).view_le hK.free hi
  have hsmall := numBlocks_small K
  change (s i).replica.rs.view ≤ _ at hview
  exact rule_progress hinj hacyc hw (hroots i hi) (reach_sound hinj hreach)
    (reach_blocks hinj hreach) rule (fun _ => by omega)

end
end
end ZkStf
