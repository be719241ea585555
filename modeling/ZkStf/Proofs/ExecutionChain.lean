import Mathlib.Data.List.Chain
import ZkStf.Proofs.Checks

namespace ZkStf
open ZkStf.Basis
open ZkStf.Basis.Ballots
open Relation (ReflTransGen)
variable {C : Crypto}

/-- The height continues the parent link: 0 on genesis, else one more than the
height of the parent. -/
def Consistent (node : Node C) : Prop :=
  (node.parent = genesisHash C → node.height = 0) ∧
    ∀ parent : Node C, nodeHash parent = node.parent →
      node.height.toNat = parent.height.toNat + 1

def Effect.executedHash : Effect C → Option C.Hash
  | .executed _ nh => some nh
  | _ => none

/-- The nodes a replica has executed, in order. -/
def Replica.executed (r : Replica C) : List C.Hash := r.effects.filterMap Effect.executedHash

section
variable {keys : Nat → Option C.Key} {arrives : Wire C → Prop} {w : Wiring C}
  {r r' : Replica C}

/-- Only an execution touches the executed nodes and the last executed height. -/
theorem Move.execute_cases (hm : Move keys arrives w r r') :
    (r'.executed = r.executed ∧ r'.rs.lastExecutedHeight = r.rs.lastExecutedHeight) ∨
    ∃ decided nh node, (r.rs.decidedNodes.get? decided).isSome ∧
      ReflTransGen (TreeLink r.rs.tree) decided nh ∧ r.rs.tree.get? nh = some node ∧
      asI64 node.height = r.rs.lastExecutedHeight + 1 ∧ r.rs.validationResult nh = some true ∧
      r'.executed = r.executed ++ [nh] ∧ r'.rs.lastExecutedHeight = asI64 node.height := by
  cases hm with
  | execute decided nh node r' known path found next valid applied =>
    obtain ⟨hrs, _, heff⟩ := applyNode_frame applied
    refine Or.inr ⟨decided, nh, node, known, path, found, next, valid, ?_, by rw [hrs]⟩
    simp [Replica.executed, heff, Effect.executedHash]
  | receive ty p view qc =>
    left
    simp only [withRs_rs, receiveQc_eq, stageQc_eq]
    exact ⟨rfl, rfl⟩
  | enter timeout =>
    left
    rw [enterNewView_eq]
    refine ⟨?_, rfl⟩
    simp only [Replica.executed]
    split <;> simp [Effect.executedHash]
  | propose newViews leaf =>
    exact Or.inl ⟨by simp [Replica.executed, sendProposal, Effect.executedHash], rfl⟩
  | prepare =>
    left
    rw [castVote_eq]
    refine ⟨?_, rfl⟩
    simp only [Replica.executed]
    split <;> simp [Effect.executedHash]
  | preCommit =>
    left
    rw [castVote_eq]
    refine ⟨?_, rfl⟩
    simp only [Replica.executed]
    split <;> simp [Effect.executedHash]
  | commit =>
    left
    rw [castVote_eq]
    refine ⟨?_, rfl⟩
    simp only [Replica.executed]
    split <;> simp [Effect.executedHash]
  | certify p ord qc =>
    left
    simp only [Replica.executed, emit_effects, withRs_effects, emit_rs, withRs_rs, stageQc_eq]
    exact ⟨by simp [Effect.executedHash], rfl⟩
  | kick => exact Or.inl ⟨by simp [Replica.executed, submitValidation, Effect.executedHash], rfl⟩
  | _ => exact Or.inl ⟨rfl, rfl⟩

end

section
variable {S : C.Hash → Prop}

/-- Along parent links of consistent nodes the height falls, so it tells the
nodes of one branch apart. -/
theorem extends_height (hinj : Function.Injective (nodeHash (C := C)))
    (hgen : ∀ node : Node C, nodeHash node ≠ genesisHash C)
    (hS : ∀ h, S h → ∃ node : Node C, nodeHash node = h ∧ Consistent node ∧
      (node.parent = genesisHash C ∨ S node.parent))
    {a b : Node C} (he : Extends (nodeHash a) (nodeHash b)) (ha : S (nodeHash a)) :
    S (nodeHash b) ∧ (a = b ∨ b.height.toNat < a.height.toNat) := by
  generalize hx : nodeHash a = x at he
  induction he using ReflTransGen.head_induction_on generalizing a with
  | refl =>
    cases hinj hx
    exact ⟨ha, Or.inl rfl⟩
  | head hlink hrest ih =>
    obtain ⟨a', ha', hparent⟩ := hlink
    cases hinj (ha'.trans hx.symm)
    obtain ⟨node, hnode, hcons, hback⟩ := hS _ ha
    cases hinj hnode
    rw [hparent] at hback
    rcases hback with rfl | hback
    · exact absurd (extends_genesis hgen hrest) (hgen b)
    · obtain ⟨mid, rfl, _⟩ := hS _ hback
      obtain ⟨hb, hle⟩ := ih hback rfl
      have hstep := hcons.2 mid hparent.symm
      refine ⟨hb, Or.inr ?_⟩
      rcases hle with rfl | hlt <;> omega

/-- Two ancestors of one node lie on one branch. -/
theorem extends_total (hinj : Function.Injective (nodeHash (C := C))) {top a b : C.Hash}
    (ha : Extends top a) (hb : Extends top b) : Extends a b ∨ Extends b a := by
  refine ha.total_of_right_unique ?_ hb
  rintro x y z ⟨m, hm, rfl⟩ ⟨m', hm', rfl⟩
  rw [hinj (hm.trans hm'.symm)]

end

/-- What a replica has executed: a branch from genesis, down to an ancestor of
some decided node. -/
structure Executed (r : Replica C) : Prop where
  chain : List.IsChain (fun prev next => ParentOf next prev) (genesisHash C :: r.executed)
  none : r.executed = [] → r.rs.lastExecutedHeight = -1
  last : ∀ e, r.executed.getLast? = some e → ∃ (node : Node C) (d : C.Hash), nodeHash node = e ∧
    r.rs.lastExecutedHeight = node.height.toNat ∧ (r.rs.decidedNodes.get? d).isSome ∧ Extends d e

theorem Executed.start {w : Wiring C} {n : Nat} :
    Executed (startProtocol w (bootReplica w n)) := by
  have hnone : (startProtocol w (bootReplica w n)).executed = [] := by
    rw [startProtocol, enterNewView_eq]
    simp only [Replica.executed]
    split <;> simp [bootReplica, Effect.executedHash]
  refine ⟨?_, ?_, ?_⟩
  · rw [hnone]
    exact List.isChain_singleton _
  · intro _
    rw [startProtocol, enterNewView_eq]
    rfl
  · intro e he
    rw [hnone] at he
    cases he

theorem tree_extends {tree : EntryMap C.Hash (Node C)}
    (ht : ∀ h node, tree.get? h = some node → nodeHash node = h)
    (h : ReflTransGen (TreeLink tree) a b) : Extends a b := by
  refine h.lift id ?_
  rintro x y ⟨node, hget, hparent⟩
  exact ⟨node, ht x node hget, hparent⟩

/-- The node to execute is the child of the one executed last. -/
theorem next_parent {S : C.Hash → Prop} (hinj : Function.Injective (nodeHash (C := C)))
    (hgen : ∀ node : Node C, nodeHash node ≠ genesisHash C)
    (hS : ∀ h, S h → ∃ node : Node C, nodeHash node = h ∧ Consistent node ∧
      (node.parent = genesisHash C ∨ S node.parent))
    {a b : Node C} (ha : S (nodeHash a)) (hb : S (nodeHash b))
    (hline : Extends (nodeHash a) (nodeHash b) ∨ Extends (nodeHash b) (nodeHash a))
    (hh : a.height.toNat = b.height.toNat + 1) : a.parent = nodeHash b := by
  rcases hline with he | he
  · rcases he.cases_head with heq | ⟨mid, ⟨a', ha', rfl⟩, hrest⟩
    · cases hinj heq
      omega
    · cases hinj ha'
      obtain ⟨node, hnode, hcons, hback⟩ := hS _ ha
      cases hinj hnode
      rcases hback with hroot | hback
      · rw [hroot] at hrest
        exact absurd (extends_genesis hgen hrest) (hgen b)
      · obtain ⟨m, hm, _⟩ := hS _ hback
        rw [← hm] at hrest hback
        have hstep := hcons.2 m hm
        rcases (extends_height hinj hgen hS hrest hback).2 with rfl | hlt
        · exact hm.symm
        · omega
  · rcases (extends_height hinj hgen hS he hb).2 with rfl | hlt <;> omega

section
variable {K : Cluster C} {rs : Nat → Replica C} {i : Nat} {r' : Replica C}
  {log : List (Ballot Nat C.Hash)}

/-- The next node of a decided branch, at the height due, is the child of the
node executed last, or of genesis when none was. -/
theorem Executed.next_child (hinj : Function.Injective (nodeHash (C := C)))
    (hgen : ∀ node : Node C, nodeHash node ≠ genesisHash C) (hf : K.byz.card ≤ K.faults)
    (hs : Sane K rs) (hl : Logged K rs log) (hd : K.Diligent Consistent rs) (hi : K.Honest i)
    (hx : Executed (rs i)) {d : C.Hash} {node : Node C}
    (hdec : ((rs i).rs.decidedNodes.get? d).isSome) (hext : Extends d (nodeHash node))
    (hnext : (node.height.toNat : Int) = (rs i).rs.lastExecutedHeight + 1) :
    ∀ e ∈ (genesisHash C :: (rs i).executed).getLast?, node.parent = e := by
  have hS : ∀ h, K.Backed rs h → ∃ node : Node C, nodeHash node = h ∧ Consistent node ∧
      (node.parent = genesisHash C ∨ K.Backed rs node.parent) := by
    intro h hb
    obtain ⟨node, block, hn, hfit, _, _, hback⟩ :=
      hs.backed (Cluster.intersecting hi hf) hinj hd hb
    exact ⟨node, hn, hfit, hback⟩
  have hbacked : ∀ d (node : Node C), ((rs i).rs.decidedNodes.get? d).isSome →
      Extends d (nodeHash node) → K.Backed rs (nodeHash node) := by
    intro d node hdec he
    obtain ⟨qc, _, hqc, hg⟩ := (hs.holds i hi).decided d hdec
    obtain ⟨top, rfl, _⟩ := hS d ⟨qc, hg, hqc⟩
    exact (extends_height hinj hgen hS he ⟨qc, hg, hqc⟩).1
  intro e he
  rcases List.eq_nil_or_concat (rs i).executed with hnil | ⟨before, prev, hsome⟩
  · rw [hnil] at he
    cases he
    have hzero : node.height.toNat = 0 := by
      have := hx.none hnil
      omega
    obtain ⟨node', hn, hcons, hback⟩ := hS _ (hbacked d node hdec hext)
    cases hinj hn
    rcases hback with hroot | hback
    · exact hroot
    · obtain ⟨p, hp, _⟩ := hS _ hback
      have := hcons.2 p hp
      omega
  · have hprev : (rs i).executed.getLast? = some prev := by
      rw [hsome, List.concat_eq_append, List.getLast?_concat]
    obtain ⟨m, d', rfl, hheight, hdec', hext'⟩ := hx.last prev hprev
    have he' : e = nodeHash m := by
      rw [hsome, List.concat_eq_append, ← List.cons_append, List.getLast?_concat] at he
      exact (Option.some.inj he).symm
    subst he'
    refine next_parent hinj hgen hS (hbacked d node hdec hext) (hbacked d' m hdec' hext') ?_
      (by omega)
    rcases hl.comparable hs hf hi hi hdec hdec' with hcmp | hcmp
    · exact extends_total hinj hext (hcmp.trans hext')
    · exact extends_total hinj (hcmp.trans hext) hext'

theorem executed_move (hinj : Function.Injective (nodeHash (C := C)))
    (hgen : ∀ node : Node C, nodeHash node ≠ genesisHash C) (hf : K.byz.card ≤ K.faults)
    (hs : Sane K rs) (hl : Logged K rs log) (hd : K.Diligent Consistent rs) (hi : K.Honest i)
    (hx : Executed (rs i)) {arrives : Wire C → Prop}
    (hm : Move K.peerKeys arrives (K.wiring i) (rs i) r') : Executed r' := by
  rcases hm.execute_cases with ⟨hexec, hlast⟩ | ⟨d, nh, node, hdec, hpath, hget, hnext, hvalid,
    hexec, hlast⟩
  · refine ⟨?_, ?_, ?_⟩
    · rw [hexec]
      exact hx.chain
    · rw [hexec, hlast]
      exact hx.none
    · intro e he
      rw [hexec] at he
      obtain ⟨node, d, hn, hheight, hdec, hext⟩ := hx.last e he
      exact ⟨node, d, hn, by rw [hlast, hheight], hm.decided_mono hdec, hext⟩
  · have hh := hs.holds i hi
    have hnh := hh.tree nh node hget
    subst nh
    have hext : Extends d (nodeHash node) := tree_extends hh.tree hpath
    have hsmall : asI64 node.height = node.height.toNat := by
      obtain ⟨node', block, hn, _, hblock, _⟩ := (hd i hi).verdict _ hvalid
      cases hinj hn
      have := (block_spec hblock).1
      exact asI64_of_lt (by omega)
    rw [hsmall] at hnext hlast
    have hparent := hx.next_child hinj hgen hf hs hl hd hi hdec hext hnext
    refine ⟨?_, ?_, ?_⟩
    · rw [hexec, ← List.cons_append]
      refine hx.chain.append (List.isChain_singleton _) ?_
      intro x hlastx y hy
      cases hy
      exact ⟨node, rfl, hparent x hlastx⟩
    · rw [hexec]
      simp
    · intro e he
      rw [hexec, List.getLast?_concat] at he
      cases he
      exact ⟨node, d, rfl, hlast, hm.decided_mono hdec, hext⟩

/-- A leader's own proposal is consistent: the certificate it extends is for a
node its tree holds, and a certified height is far from overflowing. -/
theorem own_proposal_consistent (hinj : Function.Injective (nodeHash (C := C)))
    (hgen : ∀ node : Node C, nodeHash node ≠ genesisHash C) (hf : K.byz.card ≤ K.faults)
    (hs : Sane K rs) (hd : K.Diligent Consistent rs) (hi : K.Honest i) {leaf : Node C}
    {high : Option (QC C)} (hparent : leaf.parent = expectedParent high)
    (hheight : newHeight (K.wiring i) (rs i).rs high = .ok (some leaf.height))
    (hgood : ∀ qc, high = some qc → K.Certifies (votesOf rs) qc) : Consistent leaf := by
  cases high with
  | none =>
    have hzero : leaf.height = 0 := by simpa [newHeight, eq_comm] using hheight
    refine ⟨fun _ => hzero, ?_⟩
    intro p hp
    exact absurd (hp.trans hparent) (hgen p)
  | some q =>
    unfold newHeight at hheight
    dsimp only at hheight
    split at hheight
    · cases hheight
    · rename_i parentNode hget
      have hnode := (hs.holds i hi).tree _ _ hget
      obtain ⟨node, block, hn, _, hblock, _⟩ := hs.backed (Cluster.intersecting hi hf) hinj hd
        ⟨q, hgood q rfl, rfl⟩
      cases hinj (hn.trans hnode.symm)
      have hsmall := (block_spec hblock).1
      unfold addOneHeight at hheight
      rw [if_pos (by omega)] at hheight
      injection hheight with hheight
      injection hheight with hheight
      refine ⟨?_, ?_⟩
      · intro hroot
        exact absurd ((hnode.trans hparent.symm).trans hroot) (hgen parentNode)
      · intro p hp
        cases hinj (hp.trans (hparent.trans hnode.symm))
        rw [← hheight, UInt64.toNat_add]
        exact Nat.mod_eq_of_lt (by simpa using by omega)

end

/-- The network of a cluster whose proposals all carry consistent heights. -/
def Cluster.Ordered (K : Cluster C) : Delivery C := fun rs i msg =>
  K.Authentic rs i msg ∧ ∀ node, msg.proposed = some node → Consistent node

/-- As long as no proposal with an inconsistent height is delivered, the nodes a
replica executes are a branch from genesis, without a gap. -/
theorem executed_nodes_chain {K : Cluster C} (hinj : Function.Injective (nodeHash (C := C)))
    (hgen : ∀ node : Node C, nodeHash node ≠ genesisHash C) (hf : K.byz.card ≤ K.faults)
    {s : System C} (hr : System.Reach K K.Ordered s) {i : Nat} (hi : K.Honest i) :
    List.IsChain (fun prev next => ParentOf next prev)
      (genesisHash C :: (s i).replica.executed) := by
  have hgrow : Growing K.Ordered := by
    intro rs rs' hg j msg ha
    exact ⟨K.authentic_growing rs rs' hg j msg ha.1, ha.2⟩
  have hinv := authentic_invariant (K := K) (s := s) (P := fun rs => (∃ log, Logged K rs log) ∧
    K.Diligent Consistent rs ∧ ∀ j, K.Honest j → Executed (rs j)) hgrow (fun _ _ _ h => h.1)
    ⟨⟨[], Logged.start K⟩, diligent_start K, ?_⟩ ?_ hr
  · exact (hinv.2.2.2 i hi).chain
  · exact fun j _ => Executed.start
  · rintro rs j r' hj hs _ ⟨⟨log, hl⟩, hd, hx⟩ hm
    refine ⟨hl.move hs (Cluster.intersecting hi hf) hj hm, ?_, ?_⟩
    · refine diligent_move hd hs hj ?_ ?_ hm
      · intro view node justify sender harr
        exact harr.2 node rfl
      · intro node high hparent hheight hgood
        exact own_proposal_consistent hinj hgen hf hs hd hj hparent hheight hgood
    · intro k hk
      by_cases hkj : k = j
      · subst k
        rw [Function.update_self]
        exact executed_move hinj hgen hf hs hl hd hj (hx j hj) hm
      · rw [Function.update_of_ne hkj]
        exact hx k hk

namespace Quartet

/-- No block but the first two is proposed. -/
def TwoProposed : Delivery crypto := fun rs i msg =>
  cluster.Authentic rs i msg ∧ ∀ node ∈ msg.proposed, node ∈ [first, second]

instance (rs : Nat → Replica crypto) (i : Nat) (msg : Wire crypto) :
    Decidable (TwoProposed rs i msg) :=
  inferInstanceAs (Decidable (_ ∧ _))

theorem first_consistent : Consistent first :=
  ⟨fun _ => rfl, fun p hp => absurd hp (tabled_nodes_fresh p)⟩

theorem second_consistent : Consistent second := by
  refine ⟨?_, ?_⟩
  · intro hgen
    cases hgen
  intro p hp
  have hfirst : p = first := tabled_nodes_apart hp
  subst p
  rfl

theorem ordered_reach {s : System crypto} (hr : System.Reach cluster TwoProposed s) :
    System.Reach cluster cluster.Ordered s := by
  refine hr.mono ?_
  rintro rs i msg ⟨ha, hp⟩
  refine ⟨ha, ?_⟩
  intro node hn
  rcases List.mem_cons.mp (hp node hn) with rfl | hmem
  · exact first_consistent
  · cases List.mem_singleton.mp hmem
    exact second_consistent

end Quartet

theorem quartet_executes : ∃ s : System Quartet.crypto,
    System.Reach Quartet.cluster Quartet.cluster.Ordered s ∧
      (s 1).replica.executed = [nodeHash Quartet.first, nodeHash Quartet.second] ∧
      List.IsChain (fun prev next => ParentOf next prev)
        (genesisHash Quartet.crypto :: (s 1).replica.executed) := by
  have hplay : (System.play Quartet.cluster Quartet.TwoProposed Quartet.bothBlocks
      (System.start Quartet.cluster)).any (fun s => decide ((s 1).replica.executed =
        [nodeHash Quartet.first, nodeHash Quartet.second])) = true := by
    decide +kernel
  obtain ⟨s, hr, hc⟩ := play_exists hplay
  have hr' := Quartet.ordered_reach hr
  exact ⟨s, hr', of_decide_eq_true hc, executed_nodes_chain tabled_nodes_apart tabled_nodes_fresh
    (by decide) hr' (i := 1) (by decide)⟩

/-! A byzantine leader that proposes a second node of height 0. -/
namespace RepeatedHeight

abbrev crypto : Crypto :=
  tabled 0 [[0, 2, 0] ++ le64 0, [1, 0, 2, 0] ++ le64 0, [1, 1, 0, 2, 0] ++ le64 1]
    (fun _ => some (.inr []))

def cluster : Cluster crypto where
  n := 4
  small := Quartet.cluster.small
  byz := {0}
  key i := (i : Nat)
  secret i := (i : Nat)
  workload := steadyWorkload crypto 3 []
  validator _ := .reexecute 0
  timeoutBaseMs := 1000
  overflowChecks := true

def first : Node crypto := ⟨.inl 0, .inr [], 0⟩

/-- A child of the first node, of height 0 again. -/
def second : Node crypto := ⟨.inl 1, .inr [], 0⟩

def third : Node crypto := ⟨.inl 2, .inr [], 1⟩

def cert (ty : MsgType) (view : Nat) (node : Node crypto) : QC crypto :=
  ⟨ty, view, nodeHash node,
    [0, 1, 2].map (fun voter => (voter, (voter, ⟨ty, view, nodeHash node⟩)))⟩

/-- Node 0 leads the view: both others get its proposal and vote. -/
def propose (view : Nat) (node : Node crypto) (justify : Option (QC crypto)) :
    List (Nat × Option (Event crypto)) :=
  [1, 2].flatMap (fun i =>
    [(i, some (.message (.proposal view node justify 0))), (i, some (.validated 0))])

def announce (ty : MsgType) (view : Nat) (qc : QC crypto) : List (Nat × Option (Event crypto)) :=
  [1, 2].map (fun i => (i, some (.message (.phaseQc ty view qc 0))))

def commit (view : Nat) (node : Node crypto) : List (Nat × Option (Event crypto)) :=
  announce .preCommit view (cert .prepare view node) ++
    announce .commit view (cert .preCommit view node) ++
    announce .decide view (cert .commit view node)

def timeout (view : Nat) : List (Nat × Option (Event crypto)) :=
  [1, 2].map (fun i => (i, some (.timer view)))

/-- The first node is committed, the second only prepared, the third committed. -/
def schedule : List (Nat × Option (Event crypto)) :=
  [(1, none), (2, none)] ++ propose 1 first none ++ commit 1 first ++
    [2, 3, 4].flatMap timeout ++ propose 5 second (some (cert .commit 1 first)) ++
    [5, 6, 7, 8].flatMap timeout ++ propose 9 third (some (cert .prepare 5 second)) ++
    commit 9 third

end RepeatedHeight

open RepeatedHeight in
/-- The third node is executed right after the first, though its parent is the
second one, which nobody executes. -/
theorem ancestor_skipped : ∃ s : System RepeatedHeight.crypto,
    Function.Injective (nodeHash (C := RepeatedHeight.crypto)) ∧
      (∀ node : Node RepeatedHeight.crypto, nodeHash node ≠ genesisHash RepeatedHeight.crypto) ∧
      cluster.byz.card ≤ cluster.faults ∧ System.Reach cluster cluster.Authentic s ∧
      cluster.Honest 1 ∧ (s 1).replica.executed = [nodeHash first, nodeHash third] ∧
      ¬ List.IsChain (fun prev next => ParentOf next prev)
        (genesisHash RepeatedHeight.crypto :: (s 1).replica.executed) := by
  have hplay : (System.play cluster cluster.Authentic schedule (System.start cluster)).any
      (fun s => decide ((s 1).replica.executed = [nodeHash first, nodeHash third])) = true := by
    decide +kernel
  obtain ⟨s, hr, hc⟩ := play_exists hplay
  have hexec := of_decide_eq_true hc
  refine ⟨s, tabled_nodes_apart, tabled_nodes_fresh, by decide, hr, by decide, hexec, ?_⟩
  rw [hexec]
  intro hchain
  obtain ⟨node, hnode, hparent⟩ := (List.isChain_cons_cons.mp
    (List.isChain_cons_cons.mp hchain).2).1
  cases tabled_nodes_apart hnode
  exact absurd hparent (by decide +kernel)

end ZkStf
