import ZkStf.Basis.Backfill
import ZkStf.Proofs.NoCrash

namespace ZkStf
open ZkStf.Basis
open ZkStf.Basis.Backfill (advance climb connected_or_cut)
variable {C : Crypto}

/-- A parent chain from genesis, with consecutive heights up to `k`. -/
structure Line (c : Nat → Node C) (k : Nat) : Prop where
  root : (c 0).parent = genesisHash C
  link : ∀ i < k, (c (i + 1)).parent = nodeHash (c i)
  height : ∀ i ≤ k, (c i).height.toNat = i

/-- The node of a level is in the tree. -/
abbrev Known (tree : EntryMap C.Hash (Node C)) (c : Nat → Node C) (i : Nat) : Prop :=
  (tree.get? (nodeHash (c i))).isSome

/-- The node of a level is known to be valid. -/
abbrev Cleared (verdicts : C.Hash → Option Bool) (c : Nat → Node C) (i : Nat) : Prop :=
  verdicts (nodeHash (c i)) = some true

/-- What a replica does with one decided node, seen from a line: its level goes
up as far as the line is known and cleared. -/
abbrev Replica.advance (r : Replica C) (c : Nat → Node C) : Nat → Nat → Nat :=
  Backfill.advance (Known r.rs.tree c) (Cleared r.rs.validationResult c)

/-- A tree as the walk needs it: nodes under their own hashes, with heights that
the cast keeps, over a line that never comes back to genesis. -/
structure Walkable (tree : EntryMap C.Hash (Node C)) : Prop where
  inj : Function.Injective (nodeHash (C := C))
  rootless : ∀ node : Node C, nodeHash node ≠ genesisHash C
  hashes : ∀ h node, tree.get? h = some node → nodeHash node = h
  small : ∀ h node, tree.get? h = some node → node.height.toNat < 2 ^ 32

section
variable {w : Wiring C} {n : Nat} {r r' : Replica C} {ord : Order}
  {tree : EntryMap C.Hash (Node C)} {c : Nat → Node C} {k : Nat}

theorem Walkable.get (ht : Walkable tree) {i : Nat} (hi : Known tree c i) :
    tree.get? (nodeHash (c i)) = some (c i) := by
  obtain ⟨node, hnode⟩ := Option.isSome_iff_exists.mp hi
  rw [hnode, ht.inj (ht.hashes _ _ hnode)]

theorem Walkable.height (ht : Walkable tree) (hline : Line c k) {i : Nat} (hk : i ≤ k)
    (hi : Known tree c i) : asI64 (c i).height = i := by
  have hsmall := ht.small _ _ (ht.get hi)
  rw [asI64_of_lt (by omega), hline.height i hk]

/-- The level after the height executed last. -/
theorem exists_level {last : Int} (h : -1 ≤ last) : ∃ level : Nat, last = level - 1 := by
  obtain ⟨level, hlevel⟩ := Int.eq_ofNat_of_zero_le (show 0 ≤ last + 1 by omega)
  exact ⟨level, by omega⟩

/-- The part of a line from one level up to another, as the walk collects it. -/
def stretch (c : Nat → Node C) (low high : Nat) : List C.Hash :=
  (List.range' low (high + 1 - low)).map (fun i => nodeHash (c i))

theorem stretch_nil {low high : Nat} (h : high < low) : stretch c low high = [] := by
  rw [stretch, Nat.sub_eq_zero_of_le h]
  rfl

theorem stretch_top {low high : Nat} (h : low ≤ high + 1) :
    stretch c low (high + 1) = stretch c low high ++ [nodeHash (c (high + 1))] := by
  unfold stretch
  rw [Nat.sub_add_comm h, List.range'_1_concat, List.map_append]
  simp [Nat.add_sub_of_le h]

theorem stretch_cons {low high : Nat} (h : low ≤ high) :
    stretch c low high = nodeHash (c low) :: stretch c (low + 1) high := by
  unfold stretch
  rw [Nat.sub_add_comm h, List.range'_succ, List.map_cons]
  simp

/-- The walk from a node of the line collects the line down to the level, or down
to the first node that is missing. -/
theorem walk_line (ht : Walkable tree) (hline : Line c k) {level fuel : Nat} {j : Nat}
    {chain out : List C.Hash} (hj : j ≤ k)
    (h : walkBack tree (level - 1 : Int) fuel (nodeHash (c j)) chain = some out) :
    ∃ low, out = chain ++ (stretch c low j).reverse ∧ (∀ i, low ≤ i → i ≤ j → Known tree c i) ∧
      (low = level ∨
        level < low ∧ low ≤ j + 1 ∧ ∃ i, level ≤ i ∧ i ≤ j ∧ ¬ Known tree c i) := by
  induction fuel generalizing j chain with
  | zero => cases h
  | succ fuel ih =>
    have hpassed : j < level → ∃ low, chain = chain ++ (stretch c low j).reverse ∧
        (∀ i, low ≤ i → i ≤ j → Known tree c i) ∧ (low = level ∨
          level < low ∧ low ≤ j + 1 ∧ ∃ i, level ≤ i ∧ i ≤ j ∧ ¬ Known tree c i) := by
      intro hlt
      refine ⟨level, ?_, by omega, Or.inl rfl⟩
      rw [stretch_nil hlt]
      simp
    unfold walkBack at h
    split at h
    · rename_i hnone
      cases h
      by_cases hlt : j < level
      · exact hpassed hlt
      · refine ⟨j + 1, ?_, by omega, Or.inr ⟨by omega, le_refl _, j, by omega, le_refl _, ?_⟩⟩
        · rw [stretch_nil (Nat.lt_succ_self j)]
          simp
        · rw [Known, hnone]
          simp
    rename_i node hnode
    have hknown : Known tree c j := by
      rw [Known, hnode]
      rfl
    cases hnode.symm.trans (ht.get hknown)
    rw [ht.height hline hj hknown] at h
    split at h
    · cases h
      exact hpassed (by omega)
    cases j with
    | zero =>
      rw [if_pos hline.root] at h
      cases h
      refine ⟨level, ?_, ?_, Or.inl rfl⟩
      · rw [stretch_cons (by omega), stretch_nil (by omega)]
        have hlow : level = 0 := by omega
        rw [hlow]
        simp
      · intro i _ hi
        cases Nat.le_zero.mp hi
        exact hknown
    | succ j =>
      have hparent := hline.link j (by omega)
      rw [hparent, if_neg (ht.rootless _)] at h
      obtain ⟨low, hout, hall, hlow⟩ := ih (by omega) h
      refine ⟨low, ?_, ?_, ?_⟩
      · rw [stretch_top (by omega), hout]
        simp
      · intro i hi hij
        rcases Nat.eq_or_lt_of_le hij with rfl | hlt
        · exact hknown
        · exact hall i hi (by omega)
      · rcases hlow with heq | ⟨hlt, hle, i, hi, hij, hmiss⟩
        · exact Or.inl heq
        · exact Or.inr ⟨hlt, by omega, i, hi, by omega, hmiss⟩

theorem kick_last (h : maybeKickValidation w leafHash r = .ok r') :
    r'.rs.lastExecutedHeight = r.rs.lastExecutedHeight := by
  rcases kick_cases h with ⟨rfl, _⟩ | ⟨node, block, input, _, rfl⟩
  · rfl
  · rfl

section
variable {level high : Nat} (hline : Line c k) (hk : high ≤ k) (hle : level ≤ high)
  (ht : Walkable r.rs.tree) (hlast : r.rs.lastExecutedHeight = level - 1)
  (hknown : Known r.rs.tree c level)
include hline hk hle ht hlast hknown

/-- A stretch that starts at the level goes by the verdict on its first node. -/
theorem execute_refused (hbad : r.rs.validationResult (nodeHash (c level)) = some false) :
    executeChain w (stretch c level high) r = .ok r := by
  rw [stretch_cons hle, executeChain, ht.get hknown]
  dsimp only
  rw [ht.height hline (by omega) hknown, if_neg (by omega), hbad]

theorem execute_open (hopen : r.rs.validationResult (nodeHash (c level)) = none) :
    executeChain w (stretch c level high) r = maybeKickValidation w (nodeHash (c level)) r := by
  rw [stretch_cons hle, executeChain, ht.get hknown]
  dsimp only
  rw [ht.height hline (by omega) hknown, if_neg (by omega), hopen]

theorem execute_cleared (hvalid : Cleared r.rs.validationResult c level)
    (h : executeChain w (stretch c level high) r = .ok r') :
    ∃ mid, executeChain w (stretch c (level + 1) high) mid = .ok r' ∧
      mid.rs.tree = r.rs.tree ∧ mid.rs.validationResult = r.rs.validationResult ∧
      mid.rs.lastExecutedHeight = level := by
  rw [stretch_cons hle, executeChain, ht.get hknown] at h
  dsimp only at h
  rw [ht.height hline (by omega) hknown, if_neg (by omega), hvalid] at h
  obtain ⟨mid, happ, hrest⟩ := bind_ok.mp h
  have hframe := (applyNode_frame happ).1
  refine ⟨mid, hrest, by rw [hframe], by rw [hframe], ?_⟩
  rw [hframe]
  exact ht.height hline (by omega) hknown

end

/-- Executing a known stretch that starts at the level applies what is cleared of
it; what is left ends at once or starts with a node that is not cleared. -/
theorem execute_line_stops (hline : Line c k) (high : Nat) (hk : high ≤ k) (steps : Nat)
    {level : Nat} (hsteps : steps = high + 1 - level) (ht : Walkable r.rs.tree)
    (hlast : r.rs.lastExecutedHeight = level - 1)
    (hall : ∀ i, level ≤ i → i ≤ high → Known r.rs.tree c i)
    (h : executeChain w (stretch c level high) r = .ok r') :
    ∃ mid stop, stop = climb (Cleared r.rs.validationResult c) steps level ∧
      executeChain w (stretch c stop high) mid = .ok r' ∧
      mid.rs.lastExecutedHeight = stop - 1 ∧ Walkable mid.rs.tree ∧
      (stop ≤ high → Known mid.rs.tree c stop ∧
        ¬ Cleared mid.rs.validationResult c stop) := by
  induction steps generalizing level r with
  | zero => exact ⟨r, level, rfl, h, hlast, ht, by omega⟩
  | succ steps ih =>
    have hle : level ≤ high := by omega
    have hknown := hall level (le_refl _) hle
    rw [climb]
    split
    case isTrue hvalid =>
      obtain ⟨mid, hrest, htree, hverdicts, hnow⟩ :=
        execute_cleared hline hk hle ht hlast hknown hvalid h
      rw [← hverdicts]
      apply ih (by omega) (htree ▸ ht) _ _ hrest
      · omega
      · rw [htree]
        intro i hi
        exact hall i (by omega)
    case isFalse hstuck => exact ⟨r, level, rfl, h, hlast, ht, fun _ => ⟨hknown, hstuck⟩⟩

/-- Executing a known stretch that starts at the level climbs as far as it is
cleared. -/
theorem execute_line (hline : Line c k) (high : Nat) (hk : high ≤ k) (steps : Nat)
    {level : Nat} (hsteps : steps = high + 1 - level) (ht : Walkable r.rs.tree)
    (hlast : r.rs.lastExecutedHeight = level - 1)
    (hall : ∀ i, level ≤ i → i ≤ high → Known r.rs.tree c i)
    (h : executeChain w (stretch c level high) r = .ok r') :
    r'.rs.lastExecutedHeight + 1 = climb (Cleared r.rs.validationResult c) steps level := by
  obtain ⟨mid, stop, hstop, hrest, hmid, htree, hopen⟩ :=
    execute_line_stops hline high hk steps hsteps ht hlast hall h
  rw [← hstop]
  rcases Nat.lt_or_ge high stop with hend | hle
  · rw [stretch_nil hend] at hrest
    cases hrest
    omega
  · obtain ⟨hknown, hstuck⟩ := hopen hle
    rcases hverdict : mid.rs.validationResult (nodeHash (c stop)) with _ | _ | _
    · rw [execute_open hline hk hle htree hmid hknown hverdict] at hrest
      rw [kick_last hrest]
      omega
    · rw [execute_refused hline hk hle htree hmid hknown hverdict] at hrest
      cases hrest
      omega
    · exact absurd hverdict hstuck

/-- A stretch that starts above the level is left for later. -/
theorem execute_gap (hline : Line c k) {level low high : Nat} (hk : high ≤ k)
    (ht : Walkable r.rs.tree) (hlast : r.rs.lastExecutedHeight = level - 1) (hgap : level < low)
    (hall : ∀ i, low ≤ i → i ≤ high → Known r.rs.tree c i) :
    executeChain w (stretch c low high) r = .ok r := by
  by_cases hne : high < low
  · rw [stretch_nil hne]
    rfl
  · have hknown := hall low (le_refl _) (by omega)
    rw [stretch_cons (by omega)]
    unfold executeChain
    rw [ht.get hknown]
    dsimp only
    rw [ht.height hline (by omega) hknown, if_pos (by omega)]

/-- The walk back from a decided node comes to an end. -/
def WalkEnds (r : Replica C) (decided : C.Hash) : Prop :=
  ∃ chain, walkBack r.rs.tree r.rs.lastExecutedHeight (r.rs.tree.size + 1) decided [] = some chain

theorem walk_ends (h : tryExecuteChain w decided r = .ok r') : WalkEnds r decided := by
  unfold tryExecuteChain at h
  split at h
  · cases h
  · exact ⟨_, by assumption⟩

theorem try_execute_connected (hline : Line c k) {level j : Nat} (hj : j ≤ k)
    (ht : Walkable r.rs.tree) (hlast : r.rs.lastExecutedHeight = level - 1)
    (hends : WalkEnds r (nodeHash (c j)))
    (hall : ∀ i, level ≤ i → i ≤ j → Known r.rs.tree c i) :
    tryExecuteChain w (nodeHash (c j)) r = executeChain w (stretch c level j) r := by
  obtain ⟨chain, hwalk⟩ := hends
  unfold tryExecuteChain
  rw [hwalk]
  rw [hlast] at hwalk
  obtain ⟨low, rfl, _, rfl | ⟨_, _, i, hi, hij, hmiss⟩⟩ := walk_line ht hline hj hwalk
  · simp only [List.nil_append, List.reverse_reverse]
  · exact absurd (hall i hi hij) hmiss

theorem try_execute_cut (hline : Line c k) {level i j : Nat} (hj : j ≤ k)
    (ht : Walkable r.rs.tree) (hlast : r.rs.lastExecutedHeight = level - 1)
    (hends : WalkEnds r (nodeHash (c j))) (hi : level ≤ i) (hij : i ≤ j)
    (hmiss : ¬ Known r.rs.tree c i) : tryExecuteChain w (nodeHash (c j)) r = .ok r := by
  obtain ⟨chain, hwalk⟩ := hends
  unfold tryExecuteChain
  rw [hwalk]
  rw [hlast] at hwalk
  obtain ⟨low, rfl, hall, rfl | ⟨hgap, _⟩⟩ := walk_line ht hline hj hwalk
  · exact absurd (hall i hi hij) hmiss
  · simp only [List.nil_append, List.reverse_reverse]
    exact execute_gap hline hj ht hlast hgap hall

/-- One decided node of a line takes the replica exactly as far as it should. -/
theorem try_execute_line (hline : Line c k) {level j : Nat} (hj : j ≤ k)
    (ht : Walkable r.rs.tree) (hlast : r.rs.lastExecutedHeight = level - 1)
    (h : tryExecuteChain w (nodeHash (c j)) r = .ok r') :
    r'.rs.lastExecutedHeight + 1 = r.advance c level j := by
  have hends := walk_ends h
  rcases connected_or_cut (Known r.rs.tree c) level j with hall | ⟨i, hi, hij, hmiss⟩
  · rw [try_execute_connected hline hj ht hlast hends hall] at h
    rw [Replica.advance, Backfill.advance_connected hall]
    exact execute_line hline j hj _ rfl ht hlast hall h
  · rw [try_execute_cut hline hj ht hlast hends hi hij hmiss] at h
    cases h
    rw [Replica.advance, Backfill.advance_cut hi hij hmiss]
    omega

theorem execute_decided_line (hline : Line c k) {index : C.Hash → Nat} {level : Nat}
    {hashes : List C.Hash} (hon : ∀ h ∈ hashes, index h ≤ k ∧ nodeHash (c (index h)) = h)
    (hd : ∀ h ∈ hashes, (r.rs.decidedNodes.get? h).isSome) (ht : Walkable r.rs.tree)
    (hlast : r.rs.lastExecutedHeight = level - 1) (h : executeDecided w hashes r = .ok r') :
    r'.rs.lastExecutedHeight + 1 = (hashes.map index).foldl (r.advance c) level := by
  induction hashes generalizing r level with
  | nil =>
    cases h
    simp only [List.map_nil, List.foldl_nil]
    omega
  | cons nh rest ih =>
    obtain ⟨mid, hfirst, hrest⟩ := bind_ok.mp h
    have hback := chores_backstage (try_execute_chores hfirst (hd nh (by simp)))
    obtain ⟨hj, hnh⟩ := hon nh (by simp)
    rw [← hnh] at hfirst
    have hmid := try_execute_line hline hj ht hlast hfirst
    have hsame : mid.advance c = r.advance c := by
      rw [Replica.advance, hback.tree, hback.validationResult]
    rw [List.map_cons, List.foldl_cons, ← hsame]
    apply ih (fun x hx => hon x (by simp [hx])) _ (hback.tree ▸ ht) _ hrest
    · rw [hback.decidedNodes]
      exact fun x hx => hd x (by simp [hx])
    · rw [hsame]
      omega

theorem executeDecided_append (front back : List C.Hash) (r : Replica C) :
    executeDecided w (front ++ back) r =
      (executeDecided w front r).bind (executeDecided w back) := by
  induction front generalizing r with
  | nil => rfl
  | cons nh rest ih =>
    simp only [List.cons_append, executeDecided]
    cases tryExecuteChain w nh r with
    | error e => rfl
    | ok mid => exact ih mid

theorem chores_last_mono (h : Chores w r r') :
    r.rs.lastExecutedHeight ≤ r'.rs.lastExecutedHeight := by
  have hm : Moves (fun _ => none) (fun _ => True) w r r' := chores_moves h
  exact moves_last_mono hm

/-- A decided node with nothing missing and everything above the level cleared is
executed, whatever else is decided. -/
theorem execute_decided_reaches (hline : Line c k) {hashes : List C.Hash}
    (hmem : nodeHash (c k) ∈ hashes) (hd : ∀ h ∈ hashes, (r.rs.decidedNodes.get? h).isSome)
    (ht : Walkable r.rs.tree) (hlow : -1 ≤ r.rs.lastExecutedHeight)
    (hall : ∀ i ≤ k, Known r.rs.tree c i)
    (hclear : ∀ i ≤ k, r.rs.lastExecutedHeight < i → Cleared r.rs.validationResult c i)
    (h : executeDecided w hashes r = .ok r') : k ≤ r'.rs.lastExecutedHeight := by
  obtain ⟨front, back, rfl⟩ := List.append_of_mem hmem
  rw [executeDecided_append] at h
  obtain ⟨before, hfront, hrest⟩ := bind_ok.mp h
  obtain ⟨after, hself, hback⟩ := bind_ok.mp hrest
  have hd' : ∀ x ∈ front, (r.rs.decidedNodes.get? x).isSome := fun x hx => hd x (by simp [hx])
  have hchores := execute_decided_chores hfront hd'
  have hsame := chores_backstage hchores
  have hself' := try_execute_chores hself (by rw [hsame.decidedNodes]; exact hd _ hmem)
  have hback' : Chores w after r' := by
    apply execute_decided_chores hback
    rw [(chores_backstage hself').decidedNodes, hsame.decidedNodes]
    exact fun x hx => hd x (by simp [hx])
  have hmono := chores_last_mono hchores
  obtain ⟨level, hlast⟩ :=
    exists_level (show -1 ≤ before.rs.lastExecutedHeight by omega)
  have hat := try_execute_line hline (le_refl k) (hsame.tree ▸ ht) hlast hself
  have hreach : k < before.advance c level k := by
    apply Backfill.advance_reaches
    intro i hi hik
    rw [hsame.tree, hsame.validationResult]
    exact ⟨hall i hik, hclear i hik (by omega)⟩
  have hend := chores_last_mono hback'
  omega

theorem rule_last_mono (rule : Rule) (h : rule.run w ord r = .ok r') :
    r.rs.lastExecutedHeight ≤ r'.rs.lastExecutedHeight := by
  by_cases hne : rule = .replicaDecide
  · subst rule
    rcases replica_decide_inv h with ⟨rfl, _⟩ | ⟨qc, mid, next, _, _, _, hchores, _, _, rfl⟩
    · exact le_refl _
    · have hmono := chores_last_mono hchores
      rw [enterNewView_lastExecuted]
      exact hmono
  · have hturn : Turn (fun _ => none) (fun _ => True) w r r' := rule_turn rule h hne
    exact moves_last_mono hturn.moves

theorem rules_last_mono {rules : List Rule} (h : runRules w ord rules r = .ok r') :
    r.rs.lastExecutedHeight ≤ r'.rs.lastExecutedHeight := by
  induction rules generalizing r with
  | nil =>
    cases h
    exact le_refl _
  | cons rule rest ih =>
    obtain ⟨mid, hrun, hrest⟩ := bind_ok.mp h
    exact (rule_last_mono rule hrun).trans (ih hrest)

/-- The rules of a pass before the backfill. -/
def earlyRules : List Rule := passOrder.take 8

/-- The rules of a pass that stay in the view. -/
def viewRules : List Rule := passOrder.take 7

theorem early_cases (h : runRules w ord earlyRules r = .ok r') :
    ∃ mid, runRules w ord viewRules r = .ok mid ∧ replicaDecide w mid = .ok r' := by
  have hsplit : earlyRules = viewRules ++ [.replicaDecide] := rfl
  rw [hsplit, runRules_append] at h
  obtain ⟨mid, hmid, hrest⟩ := bind_ok.mp h
  obtain ⟨last, hlast, hdone⟩ := bind_ok.mp hrest
  cases hdone
  exact ⟨mid, hmid, hlast⟩

/-- A pass is its early rules, the backfill and the kickoff of validations. -/
theorem pass_cases (h : tryAdvance w ord r = .ok r') :
    ∃ before after, runRules w ord earlyRules r = .ok before ∧
      retryPendingExecute w ord before = .ok after ∧
      tryKickPendingValidations w ord after = .ok r' := by
  have hsplit : passOrder = earlyRules ++ [.retryPendingExecute, .tryKickPendingValidations] := rfl
  rw [tryAdvance, hsplit, runRules_append] at h
  obtain ⟨before, hearly, hrest⟩ := bind_ok.mp h
  obtain ⟨after, hretry, hrest⟩ := bind_ok.mp hrest
  obtain ⟨last, hkick, hdone⟩ := bind_ok.mp hrest
  cases hdone
  exact ⟨before, after, hearly, hretry, hkick⟩

theorem kick_leaves_last {hashes : List C.Hash} (h : kickLeaves w hashes r = .ok r') :
    r'.rs.lastExecutedHeight = r.rs.lastExecutedHeight := by
  induction hashes generalizing r with
  | nil =>
    cases h
    rfl
  | cons nh rest ih =>
    unfold kickLeaves at h
    split at h
    · cases h
      rfl
    · obtain ⟨mid, hfirst, hrest⟩ := bind_ok.mp h
      rw [ih hrest, kick_last hfirst]

/-- The backfill reads the decided nodes, each of them. -/
theorem mem_decided (ord : Order) (r : Replica C) {h : C.Hash} :
    h ∈ ord.list .decidedNodes r.rs.decidedNodes.keys ↔ (r.rs.decidedNodes.get? h).isSome :=
  (ord.perm _ _).mem_iff.trans EntryMap.mem_keys

/-- A node can be found after each rule of a pass, up to the one that decides. -/
theorem reach_rules (front : List Rule) {back : List Rule} (hfront : .replicaDecide ∉ front)
    (hr : Machine.Reach w n ⟨r, front ++ back⟩) (h : runRules w ord front r = .ok r') :
    Machine.Reach w n ⟨r', back⟩ := by
  induction front generalizing r with
  | nil =>
    cases h
    exact hr
  | cons rule rest ih =>
    simp only [List.mem_cons, not_or] at hfront
    obtain ⟨mid, hrun, hrest⟩ := bind_ok.mp h
    refine ih hfront.2 (hr.step (fun _ => none) none (.rule ord rule (rest ++ back) r mid hrun) ?_)
      hrest
    have hturn : Turn (fun _ => none) (fun _ => True) w r mid :=
      rule_turn rule hrun (fun he => hfront.1 he.symm)
    have hview : mid.rs.view = r.rs.view := hturn.view
    intro hwraps
    have hmax : 2 ^ 64 ≤ r.rs.view + 1 := hwraps.1
    have hzero : mid.rs.view = 0 := hwraps.2
    omega

theorem reach_last {m : Machine C} (hr : Machine.Reach w n m) :
    -1 ≤ m.replica.rs.lastExecutedHeight := by
  apply reach_invariant (P := fun r => -1 ≤ r.rs.lastExecutedHeight) _ _ hr
  · rw [startProtocol, enterNewView_lastExecuted]
    exact le_refl _
  · intro keys r r' h hm
    exact h.trans hm.last_mono

theorem reach_walkable (hinj : Function.Injective (nodeHash (C := C)))
    (hgen : ∀ node : Node C, nodeHash node ≠ genesisHash C) {m : Machine C}
    (hr : Machine.Reach w n m) : Walkable m.replica.rs.tree := by
  refine ⟨hinj, hgen, (reach_requests hinj hr).hashes, ?_⟩
  intro h node hget
  obtain ⟨block, hblock⟩ := reach_blocks hinj hr h node hget
  exact (block_spec hblock).1

/-- The rules before the backfill leave a tree that can be walked. -/
theorem early_walkable (hinj : Function.Injective (nodeHash (C := C)))
    (hgen : ∀ node : Node C, nodeHash node ≠ genesisHash C)
    (hr : Machine.Reach w n ⟨r, passOrder⟩) (h : runRules w ord earlyRules r = .ok r') :
    Walkable r'.rs.tree ∧ -1 ≤ r'.rs.lastExecutedHeight ∧ Blocks w r' := by
  obtain ⟨mid, hview, hdecide⟩ := early_cases h
  have hreach : Machine.Reach w n ⟨mid, passOrder.drop 7⟩ :=
    reach_rules viewRules (by decide) hr hview
  have hrun : Rule.replicaDecide.run w ord mid = .ok r' := hdecide
  refine ⟨?_, (reach_last hreach).trans (rule_last_mono _ hrun),
    rule_blocks _ hrun (reach_blocks hinj hreach)⟩
  rw [rule_tree _ hrun (by decide)]
  exact reach_walkable hinj hgen hreach

/-- Two runs of a pass that read every map the same way, the decided nodes apart. -/
def Order.AgreesApart (ord ord' : Order) : Prop :=
  ∀ (site : Site) (α : Type) (l : List α), site ≠ .decidedNodes → ord.list site l = ord'.list site l

theorem formQc_agrees {ord ord' : Order} (ha : ord.AgreesApart ord')
    (votes : EntryMap Nat (C.Hash × C.Sig)) (ty : MsgType) (view quorum : Nat) :
    formQc ord votes ty view quorum = formQc ord' votes ty view quorum := by
  unfold formQc
  dsimp only
  rw [ha (.votes ty) _ _ (by simp), ha (.byNode ty) _ _ (by simp)]

theorem rule_agrees {ord ord' : Order} (ha : ord.AgreesApart ord') (rule : Rule)
    (hne : rule ≠ .retryPendingExecute) (r : Replica C) :
    rule.run w ord r = rule.run w ord' r := by
  cases rule with
  | leaderPrepare =>
    simp only [Rule.run, leaderPrepare]
    rw [ha .newViewMsgs _ _ (by simp)]
  | leaderPreCommit => simp only [Rule.run, leaderPreCommit, leaderQc, formQc_agrees ha]
  | leaderCommit => simp only [Rule.run, leaderCommit, leaderQc, formQc_agrees ha]
  | leaderDecide => simp only [Rule.run, leaderDecide, leaderQc, formQc_agrees ha]
  | retryPendingExecute => exact absurd rfl hne
  | tryKickPendingValidations =>
    simp only [Rule.run, tryKickPendingValidations]
    rw [ha .tree _ _ (by simp)]
  | _ => rfl

theorem rules_agree {ord ord' : Order} (ha : ord.AgreesApart ord') (rules : List Rule)
    (hne : .retryPendingExecute ∉ rules) (r : Replica C) :
    runRules w ord rules r = runRules w ord' rules r := by
  induction rules generalizing r with
  | nil => rfl
  | cons rule rest ih =>
    simp only [List.mem_cons, not_or] at hne
    simp only [runRules, rule_agrees ha rule (fun he => hne.1 he.symm)]
    congr 1
    funext mid
    exact ih hne.2 mid

/-- After a pass every decided node is executed that could be, and the order in
which the decided nodes of one chain are read makes no difference. -/
theorem committed_blocks_executed (hinj : Function.Injective (nodeHash (C := C)))
    (hgen : ∀ node : Node C, nodeHash node ≠ genesisHash C)
    (hr : Machine.Reach w n ⟨r, passOrder⟩) (hpass : tryAdvance w ord r = .ok r')
    (c : Nat → Node C) (k : Nat) (hline : Line c k) :
    ((r'.rs.decidedNodes.get? (nodeHash (c k))).isSome → (∀ i ≤ k, Known r'.rs.tree c i) →
      (∀ i ≤ k, r.rs.lastExecutedHeight < i → Cleared r'.rs.validationResult c i) →
      k ≤ r'.rs.lastExecutedHeight) ∧
    ((∀ h, (r'.rs.decidedNodes.get? h).isSome → ∃ i ≤ k, nodeHash (c i) = h) →
      ∀ (ord' : Order) (other : Replica C), ord.AgreesApart ord' →
        tryAdvance w ord' r = .ok other →
        other.rs.lastExecutedHeight = r'.rs.lastExecutedHeight) := by
  obtain ⟨before, after, hearly, hretry, hkick⟩ := pass_cases hpass
  obtain ⟨ht, hlow, _⟩ := early_walkable hinj hgen hr hearly
  have hmono := rules_last_mono hearly
  have hleaves := kick_leaves_chores hkick
  have hback := chores_backstage ((retry_chores hretry).trans hleaves)
  have hkicked := kick_leaves_last hkick
  rw [hback.decidedNodes, hback.tree, hback.validationResult, hkicked]
  constructor
  · intro hdecided hall hclear
    refine execute_decided_reaches hline ?_ ?_ ht hlow hall ?_ hretry
    · exact (mem_decided ord before).mpr hdecided
    · exact fun h hh => (mem_decided ord before).mp hh
    · exact fun i hi hlt => hclear i hi (by omega)
  · intro hon ord' other ha hother
    obtain ⟨before', after', hearly', hretry', hkick'⟩ := pass_cases hother
    rw [← rules_agree ha earlyRules (by decide), hearly] at hearly'
    cases hearly'
    choose! index hindex using hon
    obtain ⟨level, hlast⟩ := exists_level hlow
    have hend : ∀ (o : Order) (x : Replica C), retryPendingExecute w o before = .ok x →
        x.rs.lastExecutedHeight + 1 =
          (before.rs.decidedNodes.keys.map index).foldl (before.advance c) level := by
      intro o x hx
      have hd : ∀ h ∈ o.list .decidedNodes before.rs.decidedNodes.keys,
          (before.rs.decidedNodes.get? h).isSome := fun h hh => (mem_decided o before).mp hh
      rw [execute_decided_line hline (fun h hh => hindex h (hd h hh)) hd ht hlast hx]
      exact congrArg _ (Backfill.advances_perm ((o.perm _ _).map index) level)
    rw [kick_leaves_last hkick']
    have h := hend ord after hretry
    have h' := hend ord' after' hretry'
    omega

end

namespace Solo

/-- The blocks of the cluster, of which the first two are ever made. -/
def blocks : Nat → Node crypto
  | 0 => ⟨.inl 0, .inr [], 0⟩
  | _ => ⟨.inl 1, .inr [], 1⟩

theorem blocks_line : Line blocks 1 where
  root := rfl
  link := by decide
  height := by decide

end Solo

/-- The pass in which the second block is decided executes it, in whatever order
the two decided blocks are read. -/
theorem solo_commits : ∃ r r' : Replica Solo.crypto,
    Machine.Reach (Solo.cluster.wiring 0) 1 ⟨r, passOrder⟩ ∧
      tryAdvance (Solo.cluster.wiring 0) .asStored r = .ok r' ∧
      r.rs.lastExecutedHeight = 0 ∧ 1 ≤ r'.rs.lastExecutedHeight ∧
      ∀ (ord : Order) (other : Replica Solo.crypto), Order.asStored.AgreesApart ord →
        tryAdvance (Solo.cluster.wiring 0) ord r = .ok other →
        other.rs.lastExecutedHeight = r'.rs.lastExecutedHeight := by
  have hplay : (System.play Solo.cluster Solo.cluster.Authentic (Solo.schedule.take 3)
      (System.start Solo.cluster)).any (fun s => (s 0).todo.isEmpty &&
        decide (¬ finished (Solo.cluster.wiring 0) (s 0).replica) &&
        (handleEvent Solo.cluster.peerKeys (Solo.cluster.wiring 0) (s 0).replica
          (.validated 0)).toOption.any (fun r => decide (r.rs.lastExecutedHeight = 0) &&
            (tryAdvance (Solo.cluster.wiring 0) .asStored r).toOption.any (fun
              (r' : Replica Solo.crypto) => decide (r'.rs.decidedNodes.keys = [.inl 1, .inl 2]) &&
              (List.range 2).all (fun i => (r'.rs.tree.get? (nodeHash (Solo.blocks i))).isSome &&
                decide (Cleared r'.rs.validationResult Solo.blocks i))))) = true := by
    decide +kernel
  obtain ⟨s, hr, hc⟩ := play_exists hplay
  simp only [Bool.and_eq_true, List.isEmpty_iff, decide_eq_true_eq] at hc
  obtain ⟨⟨hidle, hrunning⟩, hevent⟩ := hc
  obtain ⟨r, hev, hrest⟩ := toOption_any hevent
  simp only [Bool.and_eq_true, decide_eq_true_eq] at hrest
  obtain ⟨hlast, hadvance⟩ := hrest
  obtain ⟨r', hpass, hchecks⟩ := toOption_any hadvance
  simp only [Bool.and_eq_true, decide_eq_true_eq] at hchecks
  obtain ⟨hkeys, hnodes⟩ := hchecks
  have hnode : ∀ i ≤ 1, Known r'.rs.tree Solo.blocks i ∧
      Cleared r'.rs.validationResult Solo.blocks i := by
    intro i hi
    simpa using List.all_eq_true.mp hnodes i (List.mem_range.mpr (by omega))
  have hreach : Machine.Reach (Solo.cluster.wiring 0) 1 ⟨r, passOrder⟩ :=
    hr.before_pass hidle hrunning _ hev (checked_bounded rfl (event_view _ hev))
  have hdecided : ∀ h, (r'.rs.decidedNodes.get? h).isSome →
      ∃ i ≤ 1, nodeHash (Solo.blocks i) = h := by
    intro h hh
    have hmem := EntryMap.mem_keys.mpr hh
    rw [hkeys] at hmem
    rcases List.mem_pair.mp hmem with rfl | rfl
    · exact ⟨0, by decide, rfl⟩
    · exact ⟨1, by decide, rfl⟩
  have hboth := committed_blocks_executed tabled_nodes_apart tabled_nodes_fresh hreach
    hpass Solo.blocks 1 Solo.blocks_line
  refine ⟨r, r', hreach, hpass, hlast, hboth.1 ?_ (fun i hi => (hnode i hi).1)
    (fun i hi _ => (hnode i hi).2), hboth.2 hdecided⟩
  apply EntryMap.mem_keys.mp
  rw [hkeys]
  decide

end ZkStf
