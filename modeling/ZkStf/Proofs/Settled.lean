import ZkStf.Proofs.Committed

namespace ZkStf
open ZkStf.Basis
open ZkStf.Basis.Backfill (connected_or_cut)
variable {C : Crypto}

section
variable {w : Wiring C} {n : Nat} {r r' : Replica C} {ord : Order} {c : Nat → Node C} {k : Nat}

/-- A leaf is handed to the worker once. -/
theorem kick_again (h : maybeKickValidation w leafHash r = .ok r') :
    maybeKickValidation w leafHash r' = .ok r' := by
  rcases kick_cases h with ⟨rfl, _⟩ | ⟨node, block, input, hk, rfl⟩
  · exact h
  · unfold maybeKickValidation
    have hpending : (submitValidation leafHash node block input r).rs.pendingValidation =
        some leafHash := rfl
    rw [if_pos hpending]
    split <;> rfl

/-- Once a walk ends it ends at every greater height. -/
theorem walk_mono {tree : EntryMap C.Hash (Node C)} {last last' : Int} (hle : last ≤ last')
    {fuel : Nat} {cur : C.Hash} {chain out : List C.Hash}
    (h : walkBack tree last fuel cur chain = some out) :
    ∃ out', walkBack tree last' fuel cur chain = some out' := by
  induction fuel generalizing cur chain with
  | zero => cases h
  | succ fuel ih =>
    unfold walkBack at h ⊢
    split at h
    · exact ⟨chain, rfl⟩
    split
    · exact ⟨chain, rfl⟩
    rename_i habove
    rw [if_neg (by omega)] at h
    split
    · exact ⟨chain ++ [cur], rfl⟩
    · rename_i hparent
      rw [if_neg hparent] at h
      exact ih h

theorem WalkEnds.mono {h : C.Hash} (hends : WalkEnds r h) (htree : r'.rs.tree = r.rs.tree)
    (hlast : r.rs.lastExecutedHeight ≤ r'.rs.lastExecutedHeight) : WalkEnds r' h := by
  obtain ⟨chain, hwalk⟩ := hends
  unfold WalkEnds
  rw [htree]
  exact walk_mono hlast hwalk

/-- Executing a stretch leaves nothing of it that could be executed at once. -/
theorem execute_line_again (hline : Line c k) (high : Nat) (hk : high ≤ k) (steps : Nat)
    {level : Nat} (hsteps : steps = high + 1 - level) (ht : Walkable r.rs.tree)
    (hlast : r.rs.lastExecutedHeight = level - 1)
    (hall : ∀ i, level ≤ i → i ≤ high → Known r.rs.tree c i)
    (h : executeChain w (stretch c level high) r = .ok r') (level' : Nat)
    (hlast' : r'.rs.lastExecutedHeight = level' - 1) :
    executeChain w (stretch c level' high) r' = .ok r' := by
  obtain ⟨mid, stop, _, hrest, hmid, htree, hopen⟩ :=
    execute_line_stops hline high hk steps hsteps ht hlast hall h
  rcases Nat.lt_or_ge high stop with hend | hle
  · rw [stretch_nil hend] at hrest
    cases hrest
    rw [stretch_nil (by omega)]
    rfl
  · obtain ⟨hknown, hstuck⟩ := hopen hle
    rcases hverdict : mid.rs.validationResult (nodeHash (c stop)) with _ | _ | _
    · rw [execute_open hline hk hle htree hmid hknown hverdict] at hrest
      have hkeep := kick_last hrest
      have hback := chores_backstage (kick_chores hrest)
      have hsame : level' = stop := by omega
      rw [hsame, execute_open hline hk hle (hback.tree ▸ htree) (by omega) (hback.tree ▸ hknown)
        (by rw [hback.validationResult, hverdict])]
      exact kick_again hrest
    · rw [execute_refused hline hk hle htree hmid hknown hverdict] at hrest
      cases hrest
      have hsame : level' = stop := by omega
      rw [hsame]
      exact execute_refused hline hk hle htree hmid hknown hverdict
    · exact absurd hverdict hstuck

/-- Trying to execute a decided node does nothing. -/
def Still (w : Wiring C) (r : Replica C) (decided : C.Hash) : Prop :=
  tryExecuteChain w decided r = .ok r

theorem Still.passed (hline : Line c k) {level j : Nat} (hj : j ≤ k) (ht : Walkable r.rs.tree)
    (hlast : r.rs.lastExecutedHeight = level - 1) (hends : WalkEnds r (nodeHash (c j)))
    (hlt : j < level) : Still w r (nodeHash (c j)) := by
  unfold Still
  rw [try_execute_connected hline hj ht hlast hends (by omega), stretch_nil hlt]
  rfl

/-- What is tried is settled. -/
theorem try_execute_again (hline : Line c k) {level j : Nat} (hj : j ≤ k)
    (ht : Walkable r.rs.tree) (hlast : r.rs.lastExecutedHeight = level - 1)
    (hd : (r.rs.decidedNodes.get? (nodeHash (c j))).isSome)
    (h : tryExecuteChain w (nodeHash (c j)) r = .ok r') : Still w r' (nodeHash (c j)) := by
  have hends := walk_ends h
  have hchores := try_execute_chores h hd
  have hback := chores_backstage hchores
  have hmono := chores_last_mono hchores
  rcases connected_or_cut (Known r.rs.tree c) level j with hall | ⟨i, hi, hij, hmiss⟩
  · obtain ⟨level', hlast'⟩ :=
      exists_level (show -1 ≤ r'.rs.lastExecutedHeight by omega)
    unfold Still
    rw [try_execute_connected hline hj (hback.tree ▸ ht) hlast' (hends.mono hback.tree hmono)
      (by rw [hback.tree]; exact fun i hi => hall i (by omega))]
    rw [try_execute_connected hline hj ht hlast hends hall] at h
    exact execute_line_again hline j hj _ rfl ht hlast hall h level' hlast'
  · have hsame := h
    rw [try_execute_cut hline hj ht hlast hends hi hij hmiss] at hsame
    cases hsame
    exact h

/-- A stretch is as far as its first node, while that is not cleared. -/
theorem execute_stopped {level i j : Nat} (hi : level ≤ i) (hj : level ≤ j)
    (h : ¬ Cleared r.rs.validationResult c level) :
    executeChain w (stretch c level i) r = executeChain w (stretch c level j) r := by
  rw [stretch_cons hi, stretch_cons hj]
  unfold executeChain
  split
  · rfl
  split
  · rfl
  split
  · rfl
  · rfl
  · rename_i hvalid
    exact absurd hvalid h

/-- Trying another node of the line changes nothing for a settled one. -/
theorem Still.try_execute (hline : Line c k) {level i j : Nat} (hi : i ≤ k) (hj : j ≤ k)
    (ht : Walkable r.rs.tree) (hlast : r.rs.lastExecutedHeight = level - 1)
    (hd : (r.rs.decidedNodes.get? (nodeHash (c j))).isSome) (hs : Still w r (nodeHash (c i)))
    (h : tryExecuteChain w (nodeHash (c j)) r = .ok r') : Still w r' (nodeHash (c i)) := by
  have hends := walk_ends hs
  have hchores := try_execute_chores h hd
  have hback := chores_backstage hchores
  have hmono := chores_last_mono hchores
  have hends' := hends.mono hback.tree hmono
  have hlevel := try_execute_line hline hj ht hlast h
  have ht' : Walkable r'.rs.tree := hback.tree ▸ ht
  have hlast' : r'.rs.lastExecutedHeight = (r.advance c level j : Nat) - 1 := by omega
  by_cases hpassed : i < level
  · have hle : level ≤ r.advance c level j := Backfill.le_advance level j
    exact .passed hline hi ht' hlast' hends' (by omega)
  rcases connected_or_cut (Known r.rs.tree c) level i with hall | ⟨m, hm, hmi, hmiss⟩
  · -- nothing moves while the next level is not cleared
    have hstay := try_execute_line hline hi ht hlast hs
    have hstopped : ¬ Cleared r.rs.validationResult c level :=
      Backfill.advance_stopped (by omega) hall (show r.advance c level i = level by omega)
    unfold Still at hs
    rw [try_execute_connected hline hi ht hlast hends hall] at hs
    have hsame : tryExecuteChain w (nodeHash (c j)) r = .ok r := by
      by_cases hjpassed : j < level
      · exact Still.passed hline hj ht hlast (walk_ends h) hjpassed
      rcases connected_or_cut (Known r.rs.tree c) level j with hjall | ⟨m, hm, hmj, hmiss⟩
      · rw [try_execute_connected hline hj ht hlast (walk_ends h) hjall, ← hs]
        exact execute_stopped (by omega) (by omega) hstopped
      · exact try_execute_cut hline hj ht hlast (walk_ends h) hm hmj hmiss
    cases hsame.symm.trans h
    exact (try_execute_connected hline hi ht hlast hends hall).trans hs
  · have hbound : r.advance c level j ≤ m := Backfill.advance_le hm hmiss
    exact try_execute_cut hline hi ht' hlast' hends' hbound hmi (by rw [hback.tree]; exact hmiss)

/-- All that is decided lies on one line of the tree. -/
structure OnLine (c : Nat → Node C) (k : Nat) (r : Replica C) : Prop where
  line : Line c k
  walkable : Walkable r.rs.tree
  low : -1 ≤ r.rs.lastExecutedHeight
  decided : ∀ h, (r.rs.decidedNodes.get? h).isSome → ∃ i ≤ k, nodeHash (c i) = h

theorem OnLine.chores (hs : OnLine c k r) (hc : Chores w r r') : OnLine c k r' := by
  have hback := chores_backstage hc
  refine ⟨hs.line, hback.tree ▸ hs.walkable, hs.low.trans (chores_last_mono hc), ?_⟩
  rw [hback.decidedNodes]
  exact hs.decided

/-- The backfill settles every decided node it tries, and keeps the others so. -/
theorem execute_decided_still {hashes : List C.Hash} (done : C.Hash → Prop)
    (hs : OnLine c k r) (hd : ∀ x ∈ hashes, (r.rs.decidedNodes.get? x).isSome)
    (hdone : ∀ x, done x → (r.rs.decidedNodes.get? x).isSome ∧ Still w r x)
    (h : executeDecided w hashes r = .ok r') : ∀ x, x ∈ hashes ∨ done x → Still w r' x := by
  induction hashes generalizing r done with
  | nil =>
    cases h
    intro x hx
    exact (hdone x (hx.resolve_left (by simp))).2
  | cons nh rest ih =>
    obtain ⟨mid, hfirst, hrest⟩ := bind_ok.mp h
    have hfound := hd nh (by simp)
    have hchores := try_execute_chores hfirst hfound
    have hback := chores_backstage hchores
    obtain ⟨level, hlast⟩ := exists_level hs.low
    obtain ⟨j, hj, rfl⟩ := hs.decided nh hfound
    have hnow : ∀ x, x = nodeHash (c j) ∨ done x →
        (mid.rs.decidedNodes.get? x).isSome ∧ Still w mid x := by
      intro x hx
      rw [hback.decidedNodes]
      rcases hx with rfl | hx
      · exact ⟨hfound, try_execute_again hs.line hj hs.walkable hlast hfound hfirst⟩
      · obtain ⟨hin, hstill⟩ := hdone x hx
        obtain ⟨i, hi, rfl⟩ := hs.decided x hin
        exact ⟨hin, hstill.try_execute hs.line hi hj hs.walkable hlast hfound hfirst⟩
    have hlater := ih _ (hs.chores hchores)
      (by rw [hback.decidedNodes]; exact fun x hx => hd x (by simp [hx])) hnow hrest
    intro x hx
    apply hlater
    rcases hx with hx | hx
    · rcases List.mem_cons.mp hx with rfl | hx
      · exact Or.inr (Or.inl rfl)
      · exact Or.inl hx
    · exact Or.inr (Or.inr hx)

theorem executeDecided_still {hashes : List C.Hash} (h : ∀ x ∈ hashes, Still w r x) :
    executeDecided w hashes r = .ok r := by
  induction hashes with
  | nil => rfl
  | cons nh rest ih =>
    unfold executeDecided
    rw [h nh (by simp)]
    exact ih (fun x hx => h x (by simp [hx]))

/-- A backfill leaves nothing for a second one, however that reads the decided
nodes. -/
theorem retry_still (hs : OnLine c k r) (h : retryPendingExecute w ord r = .ok r') :
    ∀ x, (r'.rs.decidedNodes.get? x).isSome → Still w r' x := by
  intro x hx
  rw [(chores_backstage (retry_chores h)).decidedNodes] at hx
  apply execute_decided_still (fun _ => False) hs _ (fun _ => False.elim) h x
  · exact Or.inl ((mem_decided ord r).mpr hx)
  · exact fun x hx => (mem_decided ord r).mp hx

/-- A pass over the leaves hands over at most one, and only to an idle worker. -/
theorem kick_leaves_cases {hashes : List C.Hash} (h : kickLeaves w hashes r = .ok r') :
    r' = r ∨ r.rs.pendingValidation = none ∧ ∃ leafHash node block input,
      r' = submitValidation leafHash node block input r := by
  induction hashes with
  | nil =>
    cases h
    exact Or.inl rfl
  | cons nh rest ih =>
    unfold kickLeaves at h
    split at h
    · cases h
      exact Or.inl rfl
    rename_i hidle
    obtain ⟨mid, hfirst, hrest⟩ := bind_ok.mp h
    rcases kick_cases hfirst with ⟨rfl, _⟩ | ⟨node, block, input, _, rfl⟩
    · exact ih hrest
    · refine Or.inr ⟨by simpa using hidle, nh, node, block, input, ?_⟩
      cases rest with
      | nil =>
        cases hrest
        rfl
      | cons nh' rest =>
        have hbusy : (submitValidation nh node block input r).rs.pendingValidation.isSome := rfl
        unfold kickLeaves at hrest
        rw [if_pos hbusy] at hrest
        cases hrest
        rfl

section
variable {leafHash : C.Hash} {node : Node C} {block : BlockRef C} {input : State}

/-- A leaf that an idle worker does not get, a busy one does not get either. -/
theorem kick_busy (hb : Blocks w r) {nh : C.Hash} (hidle : r.rs.pendingValidation = none)
    (h : maybeKickValidation w nh r = .ok r) :
    maybeKickValidation w nh (submitValidation leafHash node block input r) =
      .ok (submitValidation leafHash node block input r) := by
  have hnot : ∀ node block input, ¬ Kickable w r nh node block input := by
    rcases kick_cases h with ⟨_, hnot⟩ | ⟨node, block, input, _, hr⟩
    · exact hnot
    · have hpending := congrArg (fun r : Replica C => r.rs.pendingValidation) hr
      rw [hidle] at hpending
      cases hpending
  obtain ⟨r', hr'⟩ :=
    kick_progress (show Blocks w (submitValidation leafHash node block input r) from hb) nh
  rcases kick_cases hr' with ⟨rfl, _⟩ | ⟨node', block', input', hk, _⟩
  · exact hr'
  · have hbefore : Kickable w r nh node' block' input' :=
      ⟨hk.fresh, by simp [hidle], hk.found, hk.read, hk.cmd, hk.start⟩
    exact absurd hbefore (hnot node' block' input')

theorem execute_chain_busy (hb : Blocks w r) {chain : List C.Hash} {decided : C.Hash}
    (hidle : r.rs.pendingValidation = none) (hd : (r.rs.decidedNodes.get? decided).isSome)
    (hl : ∀ x ∈ chain, Relation.ReflTransGen (TreeLink r.rs.tree) decided x)
    (h : executeChain w chain r = .ok r) :
    executeChain w chain (submitValidation leafHash node block input r) =
      .ok (submitValidation leafHash node block input r) := by
  have htree : (submitValidation leafHash node block input r).rs.tree = r.rs.tree := rfl
  have hlast : (submitValidation leafHash node block input r).rs.lastExecutedHeight =
      r.rs.lastExecutedHeight := rfl
  have hverdicts : (submitValidation leafHash node block input r).rs.validationResult =
      r.rs.validationResult := rfl
  cases chain with
  | nil => rfl
  | cons nh rest =>
    unfold executeChain at h ⊢
    rw [htree, hlast, hverdicts]
    split at h
    · cases h
    rename_i found hfound
    split
    · rfl
    rename_i hnext
    rw [if_neg hnext] at h
    split at h
    · rfl
    · exact kick_busy hb hidle h
    · -- an execution would have moved the replica
      rename_i hvalid
      obtain ⟨mid, happ, hrest⟩ := bind_ok.mp h
      have hnext : asI64 found.height = r.rs.lastExecutedHeight + 1 := by simpa using hnext
      have hchore : Chore w r mid :=
        .execute decided nh found mid hd (hl nh (by simp)) hfound hnext hvalid happ
      have hback := hchore.backstage
      have hchores : Chores w mid r := by
        apply execute_chain_chores hrest (by rw [hback.decidedNodes]; exact hd)
        rw [hback.tree]
        exact fun x hx => hl x (by simp [hx])
      have hmono := chores_last_mono hchores
      have hnow : mid.rs.lastExecutedHeight = r.rs.lastExecutedHeight + 1 := by
        rw [(applyNode_frame happ).1]
        exact hnext
      omega

theorem Still.busy (hb : Blocks w r) {decided : C.Hash} (hidle : r.rs.pendingValidation = none)
    (hd : (r.rs.decidedNodes.get? decided).isSome) (h : Still w r decided) :
    Still w (submitValidation leafHash node block input r) decided := by
  obtain ⟨chain, hwalk⟩ := walk_ends h
  unfold Still tryExecuteChain at h ⊢
  rw [hwalk] at h
  have hwalk' : walkBack (submitValidation leafHash node block input r).rs.tree
      (submitValidation leafHash node block input r).rs.lastExecutedHeight
      ((submitValidation leafHash node block input r).rs.tree.size + 1) decided [] =
        some chain := hwalk
  rw [hwalk']
  apply execute_chain_busy hb hidle hd _ h
  intro x hx
  exact walk_linked hwalk (by simp) .refl x (List.mem_reverse.mp hx)

end

theorem kickLeaves_busy {nh : C.Hash} (h : r.rs.pendingValidation = some nh)
    (hashes : List C.Hash) : kickLeaves w hashes r = .ok r := by
  cases hashes with
  | nil => rfl
  | cons x rest =>
    unfold kickLeaves
    rw [h]
    rfl

theorem kickLeaves_unfit (hb : Blocks w r) {hashes : List C.Hash}
    (h : ∀ x ∈ hashes, ∀ node block input, ¬ Kickable w r x node block input) :
    kickLeaves w hashes r = .ok r := by
  induction hashes with
  | nil => rfl
  | cons nh rest ih =>
    obtain ⟨r', hr'⟩ := kick_progress hb nh
    unfold kickLeaves
    split
    · rfl
    rcases kick_cases hr' with ⟨rfl, _⟩ | ⟨node, block, input, hk, _⟩
    · rw [hr']
      exact ih (fun x hx => h x (by simp [hx]))
    · exact absurd hk (h nh (by simp) node block input)

/-- After the last two rules of a pass neither of them has anything left to do. -/
theorem chores_settled (hb : Blocks w r) (hs : OnLine c k r)
    (hretry : retryPendingExecute w ord r = .ok mid)
    (hkick : tryKickPendingValidations w ord mid = .ok r') (ord' : Order) :
    retryPendingExecute w ord' r' = .ok r' ∧ tryKickPendingValidations w ord' r' = .ok r' := by
  have hbmid : Blocks w mid := hb.chores (retry_chores hretry)
  have hstill := retry_still hs hretry
  have hleaves := kick_leaves_chores hkick
  constructor
  · apply executeDecided_still
    intro x hx
    have hd := (mem_decided ord' r').mp hx
    rw [(chores_backstage hleaves).decidedNodes] at hd
    rcases kick_leaves_cases hkick with rfl | ⟨hidle, leafHash, node, block, input, rfl⟩
    · exact hstill x hd
    · exact (hstill x hd).busy hbmid hidle hd
  · cases hfree : r'.rs.pendingValidation with
    | some nh => exact kickLeaves_busy hfree _
    | none =>
      obtain ⟨rfl, hnone⟩ := kick_leaves_free hkick hfree
      apply kickLeaves_unfit hbmid
      intro x hx
      exact hnone x ((ord.perm _ _).mem_iff.mpr ((ord'.perm _ _).mem_iff.mp hx))

end
end ZkStf
