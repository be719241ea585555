import ZkStf.Proofs.LedgerFold
import ZkStf.Proofs.SerialWorker

namespace ZkStf
open ZkStf.Basis
open Relation (ReflTransGen)
variable {C : Crypto}

/-- The tree's node of the hash is at or below the last executed height, as the
code compares the two. -/
def Behind (r : Replica C) (h : C.Hash) : Prop :=
  ∃ node, r.rs.tree.get? h = some node ∧ asI64 node.height ≤ r.rs.lastExecutedHeight

/-- A block that was handed to the worker: it carries the command of its height,
and without cached post-states its parent is genesis or executed. -/
def Asked (w : Wiring C) (r : Replica C) (h : C.Hash) : Prop :=
  ∃ node block, r.rs.tree.get? h = some node ∧ w.workload.block node.height = .ok block ∧
    block.cmd = node.cmd ∧
    (w.validator.reexecutes = true ∨ node.parent = genesisHash C ∨ Behind r node.parent)

/-- What stands behind the verdicts and the cached post-states of a node. -/
structure Requests (w : Wiring C) (r : Replica C) : Prop where
  hashes : ∀ h node, r.rs.tree.get? h = some node → nodeHash node = h
  queued : ∀ entry ∈ r.valReqs, Asked w r entry.1.nodeHash
  verdict : ∀ h, (r.rs.validationResult h).isSome → Asked w r h
  cached : w.validator.reexecutes = true → ∀ h, r.rs.validationResult h = some true →
    (r.rs.postStateByNode h).isSome ∨ Behind r h
  uncached : w.validator.reexecutes = false → ∀ h, r.rs.postStateByNode h = none

section
variable {keys : Nat → Option C.Key} {arrives : Wire C → Prop} {w : Wiring C} {n : Nat}
  {r r' : Replica C} {h : C.Hash}

theorem Behind.mono (he : Behind r h)
    (hg : ∀ h node, r.rs.tree.get? h = some node → r'.rs.tree.get? h = some node)
    (hl : r.rs.lastExecutedHeight ≤ r'.rs.lastExecutedHeight) : Behind r' h := by
  obtain ⟨node, hget, hle⟩ := he
  exact ⟨node, hg h node hget, hle.trans hl⟩

theorem Asked.mono (ha : Asked w r h)
    (hg : ∀ h node, r.rs.tree.get? h = some node → r'.rs.tree.get? h = some node)
    (hl : r.rs.lastExecutedHeight ≤ r'.rs.lastExecutedHeight) : Asked w r' h := by
  obtain ⟨node, block, hget, hblock, hcmd, hparent⟩ := ha
  refine ⟨node, block, hg h node hget, hblock, hcmd, ?_⟩
  exact hparent.imp_right (Or.imp_right (fun he => he.mono hg hl))

/-- Heights only go up. -/
theorem Move.last_mono (hm : Move keys arrives w r r') :
    r.rs.lastExecutedHeight ≤ r'.rs.lastExecutedHeight := by
  rcases hm.ledger_cases with hs | ⟨k, req, input, out, _, _, rfl⟩ |
    ⟨leafHash, node, block, input, _, _, _, _, rfl⟩ | ⟨nh, node, _, hnext, _, happ⟩
  · exact hs.last.ge
  · exact le_refl _
  · exact le_refl _
  · rw [(applyNode_frame happ).1]
    dsimp only
    omega

theorem moves_last_mono (hm : Moves keys arrives w r r') :
    r.rs.lastExecutedHeight ≤ r'.rs.lastExecutedHeight := by
  induction hm with
  | refl => exact le_refl _
  | tail _ hm ih => exact ih.trans hm.last_mono

theorem moves_tree_grow (hinj : Function.Injective (nodeHash (C := C)))
    (hm : Moves keys arrives w r r')
    (ht : ∀ h node, r.rs.tree.get? h = some node → nodeHash node = h) :
    (∀ h node, r'.rs.tree.get? h = some node → nodeHash node = h) ∧
      ∀ h node, r.rs.tree.get? h = some node → r'.rs.tree.get? h = some node := by
  induction hm with
  | refl => exact ⟨ht, fun _ _ h => h⟩
  | tail _ hm ih =>
    obtain ⟨hh, hg⟩ := ih
    obtain ⟨hh', hg'⟩ := hm.tree_grow hinj hh
    exact ⟨hh', fun h node hget => hg' h node (hg h node hget)⟩

/-- A validation starts from the live state or from the parent's cached one. -/
theorem inputState_ready {node : Node C} {input : State} (hi : inputState r node = some input) :
    node.parent = genesisHash C ∨ Behind r node.parent ∨
      (r.rs.postStateByNode node.parent).isSome := by
  unfold inputState at hi
  split at hi
  · exact Or.inl (by assumption)
  · split at hi
    · cases hi
    · rename_i parentNode hparent
      split at hi
      · exact Or.inr (Or.inl ⟨parentNode, hparent, by assumption⟩)
      · exact Or.inr (Or.inr (by rw [hi]; rfl))

theorem Requests.frame (hq : Requests w r) (hs : SameLedger r r')
    (hh : ∀ h node, r'.rs.tree.get? h = some node → nodeHash node = h)
    (hg : ∀ h node, r.rs.tree.get? h = some node → r'.rs.tree.get? h = some node) :
    Requests w r' := by
  refine ⟨hh, ?_, ?_, ?_, ?_⟩
  · intro entry he
    rw [hs.queue] at he
    exact (hq.queued entry he).mono hg hs.last.ge
  · intro x hx
    rw [hs.verdicts] at hx
    exact (hq.verdict x hx).mono hg hs.last.ge
  · intro hv x hx
    rw [hs.verdicts] at hx
    rw [hs.postStates]
    exact (hq.cached hv x hx).imp_right (fun he => he.mono hg hs.last.ge)
  · intro hv x
    rw [hs.postStates]
    exact hq.uncached hv x

theorem runValidation_postState {checks : Bool} {wl : Workload C} {req : ValidateRequest C}
    {input : State} {v : Validator C} {out : ValidateOutcome C}
    (h : runValidation checks wl req input v = .ok out) :
    out.postState.isSome = (v.reexecutes && out.valid) := by
  rcases runValidation_cases h with rfl | ⟨_, hv, _, rfl⟩ | ⟨_, _, rfl, _, _, rfl⟩
  · simp [invalidOutcome]
  · simp [hv]
  · simp [Validator.reexecutes]

theorem Requests.ingest (hq : Requests w r) {k : Nat} {req : ValidateRequest C} {input : State}
    {out : ValidateOutcome C} (hk : r.valReqs[k]? = some (req, input))
    (hran : runValidation w.overflowChecks w.workload req input w.validator = .ok out) :
    Requests w ({ r with valReqs := r.valReqs.eraseIdx k }.withRs (ingestValidation out)) := by
  have hasked : Asked w r req.nodeHash := hq.queued _ (List.mem_of_getElem? hk)
  have hpost := runValidation_postState hran
  refine ⟨hq.hashes, ?_, ?_, ?_, ?_⟩
  · intro entry he
    exact hq.queued entry (List.mem_of_mem_eraseIdx he)
  · intro x hx
    simp only [withRs_rs, ingestValidation, runValidation_nodeHash hran,
      Function.update_apply] at hx
    split at hx
    · subst x
      exact hasked
    · exact hq.verdict x hx
  · intro hv x hx
    simp only [withRs_rs, ingestValidation, runValidation_nodeHash hran,
      Function.update_apply] at hx ⊢
    rw [hv, Bool.true_and] at hpost
    cases hps : out.postState with
    | none =>
      rw [hps] at hpost
      split at hx
      · rw [← hpost] at hx
        cases hx
      · exact hq.cached hv x hx
    | some post =>
      by_cases hreq : x = req.nodeHash
      · simp [hreq]
      · rw [if_neg hreq] at hx
        simp only [Function.update_apply, if_neg hreq]
        exact hq.cached hv x hx
  · intro hv x
    simp only [withRs_rs, ingestValidation]
    rw [hv, Bool.false_and] at hpost
    rw [Option.isSome_eq_false_iff.mp hpost |> Option.isNone_iff_eq_none.mp]
    exact hq.uncached hv x

theorem Requests.kick (hq : Requests w r) {leafHash : C.Hash} {node : Node C} {block : BlockRef C}
    {input : State} (hget : r.rs.tree.get? leafHash = some node)
    (hblock : w.workload.block node.height = .ok block) (hcmd : block.cmd = node.cmd)
    (hi : inputState r node = some input) :
    Requests w (submitValidation leafHash node block input r) := by
  refine { hq with queued := ?_ }
  intro entry he
  rcases List.mem_append.mp he with he | he
  · exact hq.queued entry he
  · cases List.mem_singleton.mp he
    refine ⟨node, block, hget, hblock, hcmd, ?_⟩
    cases hv : w.validator.reexecutes with
    | true => exact Or.inl rfl
    | false =>
      rcases inputState_ready hi with hroot | hexec | hpost
      · exact Or.inr (Or.inl hroot)
      · exact Or.inr (Or.inr hexec)
      · rw [hq.uncached hv] at hpost
        cases hpost

theorem Requests.execute (hq : Requests w r) {nh : C.Hash} {node : Node C}
    (hget : r.rs.tree.get? nh = some node)
    (hnext : asI64 node.height = r.rs.lastExecutedHeight + 1)
    (happ : applyNode nh node r = .ok r') : Requests w r' := by
  obtain ⟨hrs, hqueue, _⟩ := applyNode_frame happ
  have hposts := (applyNode_states happ).2
  have hlast : r'.rs.lastExecutedHeight = asI64 node.height := by rw [hrs]
  have hle : r.rs.lastExecutedHeight ≤ r'.rs.lastExecutedHeight := by omega
  have hg : ∀ h node, r.rs.tree.get? h = some node → r'.rs.tree.get? h = some node := by
    intro h node hget
    rw [hrs]
    exact hget
  refine ⟨?_, ?_, ?_, ?_, ?_⟩
  · rw [hrs]
    exact hq.hashes
  · rw [hqueue]
    exact fun entry he => (hq.queued entry he).mono hg hle
  · intro x hx
    rw [hrs] at hx
    exact (hq.verdict x hx).mono hg hle
  · intro hv x hx
    rw [hrs] at hx
    rw [hposts, Function.update_apply]
    split
    · subst x
      exact Or.inr ⟨node, hg _ _ hget, hlast.ge⟩
    · exact (hq.cached hv x hx).imp_right (fun he => he.mono hg hle)
  · intro hv x
    rw [hposts, Function.update_apply]
    split
    · rfl
    · exact hq.uncached hv x

theorem Requests.move (hinj : Function.Injective (nodeHash (C := C))) (hq : Requests w r)
    (hm : Move keys arrives w r r') : Requests w r' := by
  obtain ⟨hh, hg⟩ := hm.tree_grow hinj hq.hashes
  rcases hm.ledger_cases with hs | ⟨k, req, input, out, hk, hran, rfl⟩ |
    ⟨leafHash, node, block, input, hget, hblock, hcmd, hi, rfl⟩ | ⟨nh, node, hget, hnext, _, happ⟩
  · exact hq.frame hs hh hg
  · exact hq.ingest hk hran
  · exact hq.kick hget hblock hcmd hi
  · exact hq.execute hget hnext happ

theorem Requests.start : Requests w (startProtocol w (bootReplica w n)) := by
  rw [startProtocol, enterNewView_eq]
  refine ⟨?_, ?_, ?_, ?_, ?_⟩ <;> simp [bootReplica, ReplicaState.new]

theorem reach_requests (hinj : Function.Injective (nodeHash (C := C))) {m : Machine C}
    (hr : Machine.Reach w n m) : Requests w m.replica :=
  reach_invariant .start (fun _ _ _ h hm => h.move hinj hm) hr

end
end ZkStf
