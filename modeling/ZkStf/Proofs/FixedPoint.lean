import ZkStf.Proofs.Resting
import ZkStf.Proofs.Settled

namespace ZkStf
open ZkStf.Basis
open ZkStf.Basis.Ballots (Phase)
variable {C : Crypto}

/-! What a pass comes to in its view, told from the state before it. -/
section
variable (w : Wiring C) (ord : Order) (rs : ReplicaState C)

/-- The leaf a leader proposes, and the certificate it extends. -/
def leafOffered : Option (Node C × Option (QC C)) :=
  let newViews := (rs.viewData (rs.view - 1)).newViewMsgs
  let high := highQc (ord.list .newViewMsgs newViews.entries)
  if rs.leaderFor rs.view = w.myId ∧ (rs.viewData rs.view).broadcastProposal = false ∧
      rs.quorum ≤ newViews.size then
    match newHeight w rs high with
    | .ok (some height) =>
      if height.toNat < w.workload.manifest.numBlocks.toNat then
        (w.workload.block height).toOption.map (fun block =>
          (⟨expectedParent high, block.cmd, height⟩, high))
      else none
    | _ => none
  else none

def proposalAtHand : Option (Node C × Option (QC C)) :=
  (rs.viewData rs.view).proposal.or (leafOffered w ord rs)

def treeAtHand : EntryMap C.Hash (Node C) :=
  (leafOffered w ord rs).elim rs.tree (fun offer => rs.tree.insert (nodeHash offer.1) offer.1)

/-- The node that gets the PREPARE vote. -/
def voteOnProposal (proposal : Option (Node C × Option (QC C))) (tree : EntryMap C.Hash (Node C)) :
    Option C.Hash :=
  if (rs.viewData rs.view).voted .prepare then none
  else proposal.bind (fun offer =>
    if rs.validationResult (nodeHash offer.1) = some true ∧
        safeNode offer.1 offer.2 rs.lockedQc tree = true then some (nodeHash offer.1)
    else none)

/-- The node that gets the vote of the phase after a certificate. -/
def voteOnCert (next : Phase) (cert : Option (QC C)) : Option C.Hash :=
  if (rs.viewData rs.view).voted next then none else cert.map QC.nodeHash

/-- A leader's bucket of votes once its own is in it. -/
def votesWith (p : Phase) (own : Option C.Hash) : EntryMap Nat (C.Hash × C.Sig) :=
  own.elim ((rs.viewData rs.view).votes p) (fun nh =>
    ((rs.viewData rs.view).votes p).insert w.myId
      (nh, signVote w.sk (msgTypeOf p) rs.view nh))

/-- The certificate of a phase at hand: the one seen, or the one a leader forms. -/
def certWith (p : Phase) (own : Option C.Hash) : Option (QC C) :=
  if (rs.viewData rs.view).seen p then rs.staged p rs.view
  else if rs.leaderFor rs.view = w.myId ∧ (rs.viewData rs.view).broadcast p = false then
    formQc ord (votesWith w rs p own) (msgTypeOf p) rs.view rs.quorum
  else none

def prepareCert : Option (QC C) :=
  certWith w ord rs .prepare
    (voteOnProposal rs (proposalAtHand w ord rs) (treeAtHand w ord rs))

def preCommitCert : Option (QC C) :=
  certWith w ord rs .preCommit (voteOnCert rs .preCommit (prepareCert w ord rs))

def commitCert : Option (QC C) :=
  certWith w ord rs .commit (voteOnCert rs .commit (preCommitCert w ord rs))

/-- The PREPARE certificate that the node then holds. -/
def certHeld : Option (QC C) :=
  if (rs.viewData rs.view).voted .preCommit then rs.prepareQc
  else (prepareCert w ord rs).or rs.prepareQc

/-- The NEW-VIEWs of the view once the node has left it for one that it leads. -/
def newViewsWith : EntryMap Nat (Option (QC C)) :=
  (rs.viewData rs.view).newViewMsgs.insert w.myId (certHeld w ord rs)

/-- Nothing has arrived that the next view could start with. -/
@[mk_iff]
structure NextQuiet (ord' : Order) : Prop where
  propose : rs.leaderFor (rs.view + 1) ≠ w.myId ∨
    (rs.viewData (rs.view + 1)).broadcastProposal = true ∨
    (newViewsWith w ord rs).size < rs.quorum ∨
    newHeight w { rs with tree := treeAtHand w ord rs }
      (highQc (ord'.list .newViewMsgs (newViewsWith w ord rs).entries)) = .ok none ∨
    ∃ height, newHeight w { rs with tree := treeAtHand w ord rs }
      (highQc (ord'.list .newViewMsgs (newViewsWith w ord rs).entries)) = .ok (some height) ∧
      w.workload.manifest.numBlocks.toNat ≤ height.toNat
  prepare : (rs.viewData (rs.view + 1)).proposal = none ∨
    (rs.viewData (rs.view + 1)).voted .prepare = true ∨
    ∃ leaf high, (rs.viewData (rs.view + 1)).proposal = some (leaf, high) ∧
      rs.validationResult (nodeHash leaf) = none
  certify : ∀ p, rs.leaderFor (rs.view + 1) ≠ w.myId ∨
    (rs.viewData (rs.view + 1)).broadcast p = true ∨
    NoQuorum ((rs.viewData (rs.view + 1)).votes p) rs.quorum
  preCommit : (rs.viewData (rs.view + 1)).seen .prepare = false ∨
    (rs.viewData (rs.view + 1)).voted .preCommit = true ∨ rs.staged .prepare (rs.view + 1) = none
  commit : (rs.viewData (rs.view + 1)).seen .preCommit = false ∨
    (rs.viewData (rs.view + 1)).voted .commit = true ∨ rs.staged .preCommit (rs.view + 1) = none
  decide : (rs.viewData (rs.view + 1)).seen .commit = false ∨
    rs.staged .commit (rs.view + 1) = none

end

section
variable {w : Wiring C} {n : Nat} {r r' r'' : Replica C} {ord ord' : Order} {p next : Phase}
  {c : Nat → Node C} {k : Nat} {own : Option C.Hash}

/-- The certificate of a phase that the node has seen. -/
def certSeen (p : Phase) (rs : ReplicaState C) : Option (QC C) :=
  if (rs.viewData rs.view).seen p then rs.staged p rs.view else none

theorem leader_prepare_offers (h : leaderPrepare w ord r = .ok r') :
    (leafOffered w ord r.rs = none ∧ r' = r) ∨ ∃ leaf high,
      leafOffered w ord r.rs = some (leaf, high) ∧
      maybeKickValidation w (nodeHash leaf) (sendProposal w leaf high r) = .ok r' := by
  unfold leafOffered
  dsimp only
  rcases leader_prepare_cases h with ⟨rfl, hw⟩ | ⟨newViews, leaf, block, rfl, hleader, honce,
    henough, hparent, hheight, hrange, hblock, hcmd, hkick⟩
  · refine Or.inl ⟨?_, rfl⟩
    split
    · rename_i hready
      rcases hw with hw | hw | hw | hw | ⟨height, hw, hpast⟩
      · exact absurd hready.1 hw
      · rw [hw] at hready
        cases hready.2.1
      · exact absurd hready.2.2 (by omega)
      · rw [hw]
      · rw [hw]
        exact if_neg (by omega)
    · rfl
  · refine Or.inr ⟨leaf, _, ?_, hkick⟩
    rw [(ord.perm _ _).length_eq] at henough
    rw [if_pos ⟨hleader, honce, henough⟩, hheight]
    dsimp only
    rw [if_pos hrange, hblock, ← hparent]
    simp only [Except.toOption, Option.map_some, hcmd]

/-- Proposing leaves the leaf in the tree, and in the view unless that has one. -/
theorem leader_prepare_leaves (h : leaderPrepare w ord r = .ok r') :
    (r'.rs.viewData r.rs.view).proposal = proposalAtHand w ord r.rs ∧
      r'.rs.tree = treeAtHand w ord r.rs ∧ r'.rs.lockedQc = r.rs.lockedQc ∧
      r'.rs.prepareQc = r.rs.prepareQc := by
  unfold proposalAtHand treeAtHand
  rcases leader_prepare_offers h with ⟨hnone, rfl⟩ | ⟨leaf, high, hoffer, hkick⟩
  · rw [hnone, Option.or_none]
    exact ⟨rfl, rfl, rfl, rfl⟩
  · have hback := chores_backstage (kick_chores hkick)
    rw [hoffer, hback.viewData, hback.tree, hback.rs]
    refine ⟨?_, rfl, rfl, rfl⟩
    rw [sendProposal_viewData, if_pos rfl]

/-- The node's own vote is counted if it leads, and nothing else of the phase moves. -/
structure Counted (w : Wiring C) (p : Phase) (own : Option C.Hash) (r r' : Replica C) : Prop where
  votes : r.rs.leaderFor r.rs.view = w.myId →
    (r'.rs.viewData r.rs.view).votes p = votesWith w r.rs p own
  seen : (r'.rs.viewData r.rs.view).seen p = (r.rs.viewData r.rs.view).seen p
  staged : r'.rs.staged p = r.rs.staged p
  broadcast : (r'.rs.viewData r.rs.view).broadcast p = (r.rs.viewData r.rs.view).broadcast p

theorem Untouched.counted (hs : Stays r r') (hu : Untouched p r r') (hc : Counted w p own r' r'') :
    Counted w p own r r'' := by
  have hview := hs.view
  refine ⟨fun hlead => ?_, ?_, hc.staged.trans hu.staged, ?_⟩
  · have hvotes := hc.votes (by rw [leaderFor_congr hs.n, hview]; exact hlead)
    unfold votesWith at hvotes ⊢
    rwa [hview, hu.votes] at hvotes
  · rw [← hview, hc.seen, hview, hu.seen]
  · rw [← hview, hc.broadcast, hview, hu.announced]

theorem castVote_counted (p : Phase) (nh : C.Hash) (r : Replica C) :
    Counted w p (some nh) r (castVote w p nh r) := by
  rw [castVote_eq]
  refine ⟨fun hlead => ?_, ?_, rfl, ?_⟩
  · simp only [vdMut_viewData, ↓reduceIte, if_pos hlead, Function.update_self]
    rfl
  · simp only [vdMut_viewData, ↓reduceIte]
  · simp only [vdMut_viewData, ↓reduceIte]

theorem Counted.none (p : Phase) (r : Replica C) : Counted w p .none r r :=
  ⟨fun _ => rfl, rfl, rfl, rfl⟩

theorem skipPrepare_counted (r : Replica C) : Counted w .prepare none r (skipPrepare r) := by
  refine ⟨fun _ => ?_, ?_, rfl, ?_⟩ <;>
    simp only [skipPrepare, withRs_rs, vdMut_viewData, ↓reduceIte]
  rfl

theorem replica_prepare_counts (h : replicaPrepare w r = .ok r') :
    Counted w .prepare (voteOnProposal r.rs (r.rs.viewData r.rs.view).proposal r.rs.tree) r r' ∧
      r'.rs.prepareQc = r.rs.prepareQc := by
  unfold replicaPrepare at h
  unfold voteOnProposal
  dsimp only at h
  split at h
  · rename_i hnone
    cases h
    rw [vd_eq] at hnone
    rw [hnone, Option.bind_none, ite_self]
    exact ⟨.none _ _, rfl⟩
  rename_i leaf high hprop
  rw [vd_eq] at hprop
  rw [hprop, Option.bind_some]
  split at h
  · rename_i hvoted
    cases h
    rw [vd_eq] at hvoted
    rw [if_pos hvoted]
    exact ⟨.none _ _, rfl⟩
  rename_i honce
  rw [vd_eq] at honce
  rw [if_neg honce]
  dsimp only
  split at h
  · rename_i hopen
    cases h
    rw [if_neg (by simp [hopen])]
    exact ⟨.none _ _, rfl⟩
  · rename_i hrefused
    cases h
    rw [if_neg (by simp [hrefused])]
    exact ⟨skipPrepare_counted r, rfl⟩
  · rename_i hvalid
    split at h
    · rename_i hunsafe
      cases h
      rw [if_neg (by simpa [hvalid] using hunsafe)]
      exact ⟨skipPrepare_counted r, rfl⟩
    · rename_i hsafe
      cases h
      rw [if_pos ⟨hvalid, by simpa using hsafe⟩]
      refine ⟨castVote_counted _ _ _, ?_⟩
      rw [castVote_eq]
      rfl

theorem replica_vote_counts {hold : QC C → ReplicaState C → ReplicaState C}
    (hhold : ∀ qc (r : Replica C), Proceeds r (r.withRs (hold qc)) ∧
      (hold qc r.rs).viewData = r.rs.viewData ∧ (hold qc r.rs).staged = r.rs.staged)
    (h : replicaVote p next hold w r = .ok r') :
    Counted w next (voteOnCert r.rs next (certSeen p r.rs)) r r' ∧
      r'.rs.prepareQc = if (r.rs.viewData r.rs.view).voted next then r.rs.prepareQc
        else (certSeen p r.rs).elim r.rs.prepareQc (fun qc => (hold qc r.rs).prepareQc) := by
  unfold voteOnCert certSeen
  rcases replica_vote_cases h with ⟨rfl, hwait⟩ | ⟨qc, hseen, honce, hqc, rfl⟩
  · have hquiet : (r'.rs.viewData r'.rs.view).voted next = true ∨
        (if (r'.rs.viewData r'.rs.view).seen p then r'.rs.staged p r'.rs.view else none) =
          none := by
      rcases hwait with hseen | hvoted | hnone
      · exact Or.inr (by rw [hseen]; rfl)
      · exact Or.inl hvoted
      · exact Or.inr (by rw [hnone, ite_self])
    rcases hquiet with hvoted | hnone
    · rw [if_pos hvoted, if_pos hvoted]
      exact ⟨.none _ _, rfl⟩
    · rw [hnone, Option.map_none, ite_self, Option.elim_none, ite_self]
      exact ⟨.none _ _, rfl⟩
  · obtain ⟨hheld, hdata, hstaged⟩ := hhold qc r
    have hopen : ¬ (r.rs.viewData r.rs.view).voted next = true := by simp [honce]
    rw [if_neg hopen, if_neg hopen, if_pos hseen, hqc]
    constructor
    · refine Untouched.counted hheld.toStays ⟨?_, ?_, congrFun hstaged next, ?_, ?_⟩
        (castVote_counted next qc.nodeHash (r.withRs (hold qc))) <;> rw [withRs_rs, hdata]
    · rw [castVote_eq]
      rfl

/-- A leader's certificate rule leaves the phase with the certificate at hand. -/
theorem leader_qc_certs (hs : Stays r r') (hc : Counted w p own r r')
    (h : leaderQc p w ord r' = .ok r'') :
    certSeen p r''.rs = certWith w ord r.rs p own ∧ r''.rs.prepareQc = r'.rs.prepareQc := by
  have hview := hs.view
  have hleader := leaderFor_congr hs.n r.rs.view
  unfold certWith certSeen
  rw [← hc.seen, ← hc.staged, ← hc.broadcast]
  rcases leader_qc_cases h with ⟨rfl, hwait⟩ | ⟨qc, hlead, honce, hqc, rfl⟩
  · rw [hview, hleader, hs.quorum] at hwait
    refine ⟨?_, rfl⟩
    rw [hview]
    split
    · rfl
    split
    · rename_i hready
      rw [← hc.votes hready.1]
      rcases hwait with hother | honce | hfew
      · exact absurd hready.1 hother
      · rw [honce] at hready
        cases hready.2
      · exact hfew.symm
    · rfl
  · have hrs := certify_eq p qc r' (.phaseQc (announcedBy p) r'.rs.view qc w.myId)
    rw [hrs]
    rw [hview, hleader] at hlead
    rw [hview] at honce
    rw [hview, hc.votes hlead, hs.quorum] at hqc
    refine ⟨?_, rfl⟩
    rw [if_pos (⟨hlead, honce⟩ : r.rs.leaderFor r.rs.view = w.myId ∧
      (r'.rs.viewData r.rs.view).broadcast p = false), hqc]
    simp only [vdMut_view, vdMut_viewData, hview, ↓reduceIte, Function.update_self]
    split
    · rfl
    · rw [Function.update_self, Function.update_self]

theorem view_cases (h : runRules w ord viewRules r = .ok r') : ∃ r₁ r₂ r₃ r₄ r₅ r₆,
    leaderPrepare w ord r = .ok r₁ ∧ replicaPrepare w r₁ = .ok r₂ ∧
      leaderQc .prepare w ord r₂ = .ok r₃ ∧
      replicaVote .prepare .preCommit holdPrepare w r₃ = .ok r₄ ∧
      leaderQc .preCommit w ord r₄ = .ok r₅ ∧
      replicaVote .preCommit .commit holdLock w r₅ = .ok r₆ ∧
      leaderQc .commit w ord r₆ = .ok r' := by
  obtain ⟨r₁, h₁, h⟩ := bind_ok.mp h
  obtain ⟨r₂, h₂, h⟩ := bind_ok.mp h
  obtain ⟨r₃, h₃, h⟩ := bind_ok.mp h
  obtain ⟨r₄, h₄, h⟩ := bind_ok.mp h
  obtain ⟨r₅, h₅, h⟩ := bind_ok.mp h
  obtain ⟨r₆, h₆, h⟩ := bind_ok.mp h
  obtain ⟨r₇, h₇, h⟩ := bind_ok.mp h
  cases h
  exact ⟨r₁, r₂, r₃, r₄, r₅, r₆, h₁, h₂, h₃, h₄, h₅, h₆, h₇⟩

/-- The node proceeds in its view without touching a phase. -/
structure Past (p : Phase) (r r' : Replica C) : Prop extends Proceeds r r', Untouched p r r'

theorem Past.trans (h : Past p r r') (h' : Past p r' r'') : Past p r r'' :=
  ⟨h.toProceeds.trans h'.toProceeds, h.toUntouched.trans h.view h'.toUntouched⟩

/-- After its rules, the view has nothing left to do but to decide. -/
theorem view_rules_rest (h : runRules w ord viewRules r = .ok r') :
    Stays r r' ∧ Withheld w ord r' ∧ Unproposed r' ∧ (∀ p, Uncertified w p r') ∧
      Unanswered .prepare .preCommit r' ∧ Unanswered .preCommit .commit r' := by
  obtain ⟨r₁, r₂, r₃, r₄, r₅, r₆, h₁, h₂, h₃, h₄, h₅, h₆, h₇⟩ := view_cases h
  obtain ⟨s₁, withheld, _⟩ := leader_prepare_rests h₁
  obtain ⟨p₂, unproposed, _⟩ := replica_prepare_rests h₂
  obtain ⟨p₃, uncertified, _⟩ := leader_qc_rests h₃
  obtain ⟨p₄, unanswered, u₄⟩ := replica_vote_rests holdPrepare_proceeds h₄
  obtain ⟨p₅, uncertified', u₅⟩ := leader_qc_rests h₅
  obtain ⟨p₆, unanswered', u₆⟩ := replica_vote_rests holdLock_proceeds h₆
  obtain ⟨p₇, uncertified'', u₇⟩ := leader_qc_rests h₇
  -- what the later rules leave of the earlier phases
  have prepared : Past .prepare r₄ r' :=
    Past.trans ⟨p₅, u₅ _ (by decide)⟩ (.trans ⟨p₆, u₆ _ (by decide)⟩ ⟨p₇, u₇ _ (by decide)⟩)
  have preCommitted : Past .preCommit r₅ r' :=
    Past.trans ⟨p₆, u₆ _ (by decide)⟩ ⟨p₇, u₇ _ (by decide)⟩
  have rest₃ : Past .prepare r₃ r' := .trans ⟨p₄, u₄ _ (by decide)⟩ prepared
  have rest₂ : Proceeds r₂ r' := p₃.trans rest₃.toProceeds
  have rest₁ : Proceeds r₁ r' := p₂.trans rest₂
  refine ⟨s₁.trans rest₁.toStays, withheld.proceeds rest₁, unproposed.proceeds rest₂, ?_,
    unanswered.proceeds prepared.toProceeds prepared.toUntouched,
    unanswered'.proceeds p₇ (u₇ _ (by decide))⟩
  intro p
  cases p with
  | prepare => exact uncertified.proceeds rest₃.toProceeds rest₃.toUntouched
  | preCommit => exact uncertified'.proceeds preCommitted.toProceeds preCommitted.toUntouched
  | commit => exact uncertified''

theorem voteOnCert_congr (hs : Stays r r') (hu : Untouched next r r') (cert : Option (QC C)) :
    voteOnCert r'.rs next cert = voteOnCert r.rs next cert := by
  unfold voteOnCert
  rw [hs.view, hu.cast]

/-- They leave the certificates at hand, and the tree with the leaf proposed. -/
theorem view_rules_certs (h : runRules w ord viewRules r = .ok r') :
    certSeen .commit r'.rs = commitCert w ord r.rs ∧ r'.rs.tree = treeAtHand w ord r.rs ∧
      r'.rs.prepareQc = certHeld w ord r.rs := by
  obtain ⟨r₁, r₂, r₃, r₄, r₅, r₆, h₁, h₂, h₃, h₄, h₅, h₆, h₇⟩ := view_cases h
  obtain ⟨s₁, _, u₁⟩ := leader_prepare_rests h₁
  obtain ⟨p₂, _, u₂⟩ := replica_prepare_rests h₂
  obtain ⟨p₃, _, u₃⟩ := leader_qc_rests h₃
  obtain ⟨p₄, _, u₄⟩ := replica_vote_rests holdPrepare_proceeds h₄
  obtain ⟨p₅, _, u₅⟩ := leader_qc_rests h₅
  obtain ⟨p₆, _, _⟩ := replica_vote_rests holdLock_proceeds h₆
  obtain ⟨p₇, _, _⟩ := leader_qc_rests h₇
  -- the PREPARE vote is on the proposal at hand
  obtain ⟨hproposal, htree, hlocked, held₁⟩ := leader_prepare_leaves h₁
  obtain ⟨c₂, held₂⟩ := replica_prepare_counts h₂
  have hown : voteOnProposal r₁.rs (r₁.rs.viewData r₁.rs.view).proposal r₁.rs.tree =
      voteOnProposal r.rs (proposalAtHand w ord r.rs) (treeAtHand w ord r.rs) := by
    unfold voteOnProposal
    rw [s₁.view, (u₁ .prepare).cast, hproposal, htree, hlocked, s₁.verdicts]
  rw [hown] at c₂
  obtain ⟨cert₃, held₃⟩ :=
    leader_qc_certs (s₁.trans p₂.toStays) ((u₁ .prepare).counted s₁ c₂) h₃
  -- each later vote is on the certificate before it
  have s₃ : Stays r r₃ := s₁.trans (p₂.trans p₃).toStays
  have early : ∀ q, q ≠ .prepare → Untouched q r r₃ := fun q hq =>
    (u₁ q).trans s₁.view ((u₂ q hq).trans p₂.view (u₃ q hq))
  have hpre := early .preCommit (by decide)
  obtain ⟨c₄, held₄⟩ := replica_vote_counts holdPrepare_proceeds h₄
  rw [cert₃] at c₄ held₄
  rw [voteOnCert_congr s₃ hpre] at c₄
  obtain ⟨cert₅, held₅⟩ := leader_qc_certs (s₃.trans p₄.toStays) (hpre.counted s₃ c₄) h₅
  have s₅ : Stays r r₅ := s₃.trans (p₄.trans p₅).toStays
  have hcommit : Untouched .commit r r₅ := (early .commit (by decide)).trans s₃.view
    ((u₄ .commit (by decide)).trans p₄.view (u₅ .commit (by decide)))
  obtain ⟨c₆, held₆⟩ := replica_vote_counts holdLock_proceeds h₆
  rw [cert₅, voteOnCert_congr s₅ hcommit] at c₆
  obtain ⟨cert₇, held₇⟩ := leader_qc_certs (s₅.trans p₆.toStays) (hcommit.counted s₅ c₆) h₇
  refine ⟨cert₇, ?_, ?_⟩
  · rw [p₇.tree, p₆.tree, p₅.tree, p₄.tree, p₃.tree, p₂.tree, htree]
  · have hlock : r₆.rs.prepareQc = r₅.rs.prepareQc := by
      rw [held₆]
      split
      · rfl
      · cases certSeen .preCommit r₅.rs <;> rfl
    rw [held₇, hlock, held₅, held₄, s₃.view, hpre.cast, held₃, held₂, held₁]
    unfold certHeld prepareCert
    split
    · rfl
    · cases certWith w ord r.rs .prepare (voteOnProposal r.rs (proposalAtHand w ord r.rs)
        (treeAtHand w ord r.rs)) <;> rfl

/-- A view rests when it is entered exactly if nothing has arrived for it. -/
theorem enter_resting (hs : Abides r r') (htree : r'.rs.tree = treeAtHand w ord r.rs)
    (hheld : r'.rs.prepareQc = certHeld w ord r.rs) (timeout : Nat) :
    Resting w ord' (enterNewView w (r.rs.view + 1) (r'.withRs (fun rs =>
      { rs with timeoutIntervalMs := timeout }))) ↔ NextQuiet w ord r.rs ord' := by
  generalize he : enterNewView w (r.rs.view + 1) (r'.withRs (fun rs =>
      { rs with timeoutIntervalMs := timeout })) = entered
  have hview : entered.rs.view = r.rs.view + 1 := by rw [← he, enterNewView_view]
  have hn : entered.rs.n = r.rs.n := by rw [← he, enterNewView_eq]; exact hs.n
  have hquorum : entered.rs.quorum = r.rs.quorum := by rw [← he, enterNewView_eq]; exact hs.quorum
  have hverdicts : entered.rs.validationResult = r.rs.validationResult := by
    rw [← he, enterNewView_validationResult]
    exact hs.verdicts
  have hknown : entered.rs.tree = treeAtHand w ord r.rs := by
    rw [← he, enterNewView_tree]
    exact htree
  have hstaged : ∀ p, entered.rs.staged p (r.rs.view + 1) = r.rs.staged p (r.rs.view + 1) := by
    intro p
    rw [← he, enterNewView_eq]
    exact hs.ahead p _ (by omega)
  have hdata : entered.rs.viewData (r.rs.view + 1) = r.rs.viewData (r.rs.view + 1) := by
    rw [← he, enterNewView_eq]
    simp only [withRs_rs, vdMut_viewData, hs.view]
    rw [if_neg (by omega), hs.others _ (by omega)]
  have hlead := leaderFor_congr hn
  have hnew : r.rs.leaderFor (r.rs.view + 1) = w.myId →
      (entered.rs.viewData (r.rs.view + 1 - 1)).newViewMsgs = newViewsWith w ord r.rs := by
    intro hme
    rw [← leaderFor_congr hs.n] at hme
    rw [← he, enterNewView_eq, Nat.add_sub_cancel, newViewsWith, ← hheld, ← hs.newViews]
    simp only [withRs_rs, vdMut_viewData, hs.view, ↓reduceIte]
    exact if_pos hme
  simp only [resting_iff, nextQuiet_iff, Unproposed, Uncertified, Unanswered, hlead, hview, hdata,
    hverdicts, hquorum, hstaged]
  refine and_congr_left' ?_
  by_cases hme : r.rs.leaderFor (r.rs.view + 1) = w.myId
  · have hheight : ∀ high, newHeight w entered.rs high =
        newHeight w { r.rs with tree := treeAtHand w ord r.rs } high := newHeight_congr hknown
    simp only [Withheld, hlead, hview, hdata, hnew hme, hquorum, hheight]
  · exact iff_of_true (Or.inl (by rwa [hlead, hview])) (Or.inl hme)

theorem certSeen_eq_none {rs : ReplicaState C} : certSeen p rs = none ↔
    (rs.viewData rs.view).seen p = false ∨ rs.staged p rs.view = none := by
  unfold certSeen
  cases (rs.viewData rs.view).seen p <;> simp

/-- The rules before the backfill leave the node in a view at rest, unless they leave
for a view that something has arrived for. -/
theorem early_resting (h : runRules w ord earlyRules r = .ok r')
    (ha : ord'.list .newViewMsgs (r.rs.viewData (r.rs.view - 1)).newViewMsgs.entries =
      ord.list .newViewMsgs (r.rs.viewData (r.rs.view - 1)).newViewMsgs.entries)
    (hbound : ¬ Wraps r r') :
    Resting w ord' r' ↔ commitCert w ord r.rs = none ∨ NextQuiet w ord r.rs ord' := by
  obtain ⟨mid, hview, hdecide⟩ := early_cases h
  obtain ⟨hstays, withheld, unproposed, uncertified, unanswered, unanswered'⟩ :=
    view_rules_rest hview
  obtain ⟨hcert, htree, hheld⟩ := view_rules_certs hview
  rw [← hcert]
  rcases replica_decide_cases hdecide (by rwa [Wraps, hstays.view]) with ⟨rfl, hwait⟩ |
    ⟨qc, done, hseen, hqc, _, hchores, _, rfl⟩
  · refine iff_of_true ⟨?_, unproposed, uncertified, unanswered, unanswered', hwait⟩
      (Or.inl (certSeen_eq_none.mpr hwait))
    unfold Withheld at withheld ⊢
    rwa [hstays.view, hstays.newViews, ha, ← hstays.newViews, ← hstays.view]
  · have hback := chores_backstage hchores
    have habides : Abides r done := hstays.toAbides.trans { hback.proceeds.toAbides with }
    have hfound : certSeen .commit mid.rs ≠ none := by
      rw [ne_eq, certSeen_eq_none, hseen, hqc]
      simp
    rw [hstays.view, or_iff_right hfound]
    refine enter_resting habides (hback.tree.trans htree) ?_ w.timeoutBaseMs
    rw [hback.rs]
    exact hheld

/-- They decide nothing but the node of the commit certificate at hand. -/
theorem early_decided (h : runRules w ord earlyRules r = .ok r') {nh : C.Hash}
    (hd : (r'.rs.decidedNodes.get? nh).isSome) : (r.rs.decidedNodes.get? nh).isSome ∨
      (commitCert w ord r.rs).map QC.nodeHash = some nh := by
  obtain ⟨mid, hview, hdecide⟩ := early_cases h
  obtain ⟨hstays, _⟩ := view_rules_rest hview
  obtain ⟨hcert, _⟩ := view_rules_certs hview
  rcases replica_decide_inv hdecide with ⟨rfl, _⟩ |
    ⟨qc, done, next, hseen, hqc, _, hchores, _, _, rfl⟩
  · rw [hstays.decided] at hd
    exact Or.inl hd
  · rw [enterNewView_decidedNodes] at hd
    simp only [withRs_rs, (chores_backstage hchores).decidedNodes, EntryMap.get?_insert] at hd
    split at hd
    · rename_i heq
      rw [← hcert, certSeen, if_pos hseen, hqc, heq]
      exact Or.inr rfl
    · rw [hstays.decided] at hd
      exact Or.inl hd

/-- A rule that does something is heard, but for a leaf that is dropped. -/
theorem leader_prepare_heard (h : leaderPrepare w ord r = .ok r') :
    (r' = r ∧ Withheld w ord r) ∨ r.effects.length < r'.effects.length := by
  rcases leader_prepare_cases h with hwait | ⟨newViews, leaf, block, _, _, _, _, _, _, _, _, _,
    hkick⟩
  · exact Or.inl hwait
  · obtain ⟨new, hnew, _⟩ := (chores_backstage (kick_chores hkick)).effects
    refine Or.inr ?_
    rw [hnew]
    simp only [sendProposal, emit_effects, withRs_effects, List.length_append,
      List.length_singleton]
    omega

theorem castVote_heard (p : Phase) (nh : C.Hash) (r : Replica C) :
    r.effects.length < (castVote w p nh r).effects.length := by
  rw [castVote_eq]
  simp

theorem replica_prepare_heard (h : replicaPrepare w r = .ok r') :
    (r' = r ∧ Unproposed r) ∨ r' = skipPrepare r ∨ r.effects.length < r'.effects.length := by
  rcases replica_prepare_cases h with hwait | hskip | ⟨leaf, high, _, _, _, _, rfl⟩
  · exact Or.inl hwait
  · exact Or.inr (Or.inl hskip)
  · exact Or.inr (Or.inr (castVote_heard _ _ _))

theorem leader_qc_heard (h : leaderQc p w ord r = .ok r') :
    (r' = r ∧ Uncertified w p r) ∨ r.effects.length < r'.effects.length := by
  rcases leader_qc_cases h with ⟨rfl, hwait⟩ | ⟨qc, _, _, _, rfl⟩
  · exact Or.inl ⟨rfl, hwait.imp_right (Or.imp_right formQc_eq_none.mp)⟩
  · exact Or.inr (by simp)

theorem replica_vote_heard {hold : QC C → ReplicaState C → ReplicaState C}
    (h : replicaVote p next hold w r = .ok r') :
    (r' = r ∧ Unanswered p next r) ∨ r.effects.length < r'.effects.length := by
  rcases replica_vote_cases h with hwait | ⟨qc, _, _, _, rfl⟩
  · exact Or.inl hwait
  · exact Or.inr (castVote_heard next qc.nodeHash (r.withRs (hold qc)))

theorem replica_decide_heard (h : replicaDecide w r = .ok r') :
    (r' = r ∧ ((r.rs.viewData r.rs.view).seen .commit = false ∨
      r.rs.staged .commit r.rs.view = none)) ∨ r.effects.length < r'.effects.length := by
  rcases replica_decide_inv h with hwait | ⟨qc, mid, next, _, _, _, hchores, _, _, rfl⟩
  · exact Or.inl hwait
  · obtain ⟨new, hnew, _⟩ := (chores_backstage hchores).effects
    refine Or.inr ?_
    rw [enterNewView_eq]
    simp only [withRs_effects, hnew, List.length_append, List.length_singleton]
    omega

theorem heard_le {P : Prop} (h : (r' = r ∧ P) ∨ r.effects.length < r'.effects.length) :
    r.effects.length ≤ r'.effects.length := by
  rcases h with ⟨rfl, _⟩ | hlt
  · exact le_refl _
  · exact hlt.le

theorem skipPrepare_idle (h : (r.rs.viewData r.rs.view).voted .prepare = true) :
    skipPrepare r = r := by
  have hvoted : Function.update (r.rs.viewData r.rs.view).voted .prepare true =
      (r.rs.viewData r.rs.view).voted := by
    rw [← h, Function.update_eq_self]
  simp only [skipPrepare, ReplicaState.vdMut, hvoted, Replica.withRs, Function.update_eq_self]

/-- A pass that changes nothing finds the view at rest. -/
theorem idle_rests (h : tryAdvance w ord r = .ok r) : Resting w ord r := by
  obtain ⟨before, after, hearly, hretry, hkick⟩ := pass_cases h
  obtain ⟨mid, hview, hdecide⟩ := early_cases hearly
  obtain ⟨r₁, r₂, r₃, r₄, r₅, r₆, h₁, h₂, h₃, h₄, h₅, h₆, h₇⟩ := view_cases hview
  have hback := chores_backstage ((retry_chores hretry).trans (kick_leaves_chores hkick))
  obtain ⟨new, hnew, _⟩ := hback.effects
  have hlen := congrArg List.length hnew
  rw [List.length_append] at hlen
  -- nothing is heard, so no rule does more than to drop a leaf
  have l₁ := heard_le (leader_prepare_heard h₁)
  have l₂ : r₁.effects.length ≤ r₂.effects.length := by
    rcases replica_prepare_heard h₂ with ⟨rfl, _⟩ | rfl | hlt
    · exact le_refl _
    · exact le_refl _
    · exact hlt.le
  have l₃ := heard_le (leader_qc_heard h₃)
  have l₄ := heard_le (replica_vote_heard h₄)
  have l₅ := heard_le (leader_qc_heard h₅)
  have l₆ := heard_le (replica_vote_heard h₆)
  have l₇ := heard_le (leader_qc_heard h₇)
  have l₈ := heard_le (replica_decide_heard hdecide)
  obtain ⟨rfl, withheld⟩ := (leader_prepare_heard h₁).resolve_right (by omega)
  obtain ⟨rfl, uncertified⟩ := (leader_qc_heard h₃).resolve_right (by omega)
  obtain ⟨rfl, unanswered⟩ := (replica_vote_heard h₄).resolve_right (by omega)
  obtain ⟨rfl, uncertified'⟩ := (leader_qc_heard h₅).resolve_right (by omega)
  obtain ⟨rfl, unanswered'⟩ := (replica_vote_heard h₆).resolve_right (by omega)
  obtain ⟨rfl, uncertified''⟩ := (leader_qc_heard h₇).resolve_right (by omega)
  obtain ⟨rfl, undecided⟩ := (replica_decide_heard hdecide).resolve_right (by omega)
  -- a leaf that is dropped was dropped before
  have hdrop : before = r₁ ∧ Unproposed r₁ := by
    rcases replica_prepare_heard h₂ with hwait | hskip | hlt
    · exact hwait
    · have hvoted : (r₁.rs.viewData r₁.rs.view).voted .prepare = true := by
        rw [hback.viewData, hskip]
        exact (skipPrepare_proceeds r₁).2.2
      exact ⟨hskip.trans (skipPrepare_idle hvoted), Or.inr (Or.inl hvoted)⟩
    · omega
  obtain ⟨rfl, unproposed⟩ := hdrop
  refine ⟨withheld, unproposed, ?_, unanswered, unanswered', undecided⟩
  intro p
  cases p with
  | prepare => exact uncertified
  | preCommit => exact uncertified'
  | commit => exact uncertified''

/-- A second pass does nothing exactly if the view at rest is not left, or left for
one that rests as well. -/
theorem pass_idempotent (hinj : Function.Injective (nodeHash (C := C)))
    (hgen : ∀ node : Node C, nodeHash node ≠ genesisHash C)
    (hr : Machine.Reach w n ⟨r, passOrder⟩) (hline : Line c k)
    (hdecided : ∀ h, (r.rs.decidedNodes.get? h).isSome ∨
      (commitCert w ord r.rs).map QC.nodeHash = some h → ∃ i ≤ k, nodeHash (c i) = h)
    (ha : ord'.list .newViewMsgs (r.rs.viewData (r.rs.view - 1)).newViewMsgs.entries =
      ord.list .newViewMsgs (r.rs.viewData (r.rs.view - 1)).newViewMsgs.entries)
    (hpass : tryAdvance w ord r = .ok r') (hbound : ¬ Wraps r r') :
    tryAdvance w ord' r' = .ok r' ↔
      commitCert w ord r.rs = none ∨ NextQuiet w ord r.rs ord' := by
  obtain ⟨before, after, hearly, hretry, hkick⟩ := pass_cases hpass
  have hback := chores_backstage ((retry_chores hretry).trans (kick_leaves_chores hkick))
  obtain ⟨hwalk, hlow, hblocks⟩ := early_walkable hinj hgen hr hearly
  have hnext := early_resting hearly ha (by
    rintro ⟨hmax, hzero⟩
    exact hbound ⟨hmax, hback.view.trans hzero⟩)
  rw [← hnext, ← hback.resting]
  constructor
  · exact idle_rests
  intro hrest
  have honline : OnLine c k before :=
    ⟨hline, hwalk, hlow, fun h hh => hdecided h (early_decided hearly hh)⟩
  obtain ⟨hretry', hkick'⟩ := chores_settled hblocks honline hretry hkick ord'
  exact rules_rest (fun rule _ => hrest.rule hretry' hkick' rule)

end

namespace Quartet

/-- The announcement of the first decision. -/
def announcement : Wire crypto := .phaseQc .decide 1 (cert .commit) 0

/-- Node 1 has two NEW-VIEWs for its own view when the decision arrives. -/
def crowded : List (Nat × Option (Event crypto)) :=
  schedule.dropLast ++ [(1, some (.message (.newView 1 (some (cert .prepare)) 0))),
    (1, some (.message (.newView 1 none 3)))]

theorem first_line : Line (fun _ => first) 0 where
  root := rfl
  link := by decide
  height := by decide

theorem announced {s : System crypto} {r : Replica crypto}
    (hr : System.Reach cluster cluster.Authentic s) (hidle : (s 1).todo = [])
    (hrunning : ¬ finished (cluster.wiring 1) (s 1).replica)
    (h : handleMsg cluster.peerKeys (cluster.wiring 1) (s 1).replica announcement = .ok r) :
    Machine.Reach (cluster.wiring 1) 4 ⟨r, passOrder⟩ := by
  have hevent : handleEvent cluster.peerKeys (cluster.wiring 1) (s 1).replica
      (.message announcement) = .ok r := h
  exact hr.before_pass hidle hrunning _ hevent (checked_bounded rfl (event_view _ hevent))

end Quartet

/-- Deciding the first block with no NEW-VIEW at hand leaves nothing to do. -/
theorem quartet_settles : ∃ r r' : Replica Quartet.crypto,
    Machine.Reach (Quartet.cluster.wiring 1) 4 ⟨r, passOrder⟩ ∧
      tryAdvance (Quartet.cluster.wiring 1) .asStored r = .ok r' ∧ r.rs.view = 1 ∧
      r'.rs.view = 2 ∧ tryAdvance (Quartet.cluster.wiring 1) .asStored r' = .ok r' := by
  have hplay : (System.play Quartet.cluster Quartet.cluster.Authentic Quartet.schedule.dropLast
      (System.start Quartet.cluster)).any (fun s => (s 1).todo.isEmpty &&
        decide (¬ finished (Quartet.cluster.wiring 1) (s 1).replica) &&
        (handleMsg Quartet.cluster.peerKeys (Quartet.cluster.wiring 1) (s 1).replica
          Quartet.announcement).toOption.any (fun (r : Replica Quartet.crypto) =>
            decide (r.rs.view = 1) &&
            decide ((newViewsWith (Quartet.cluster.wiring 1) .asStored r.rs).size <
              r.rs.quorum) &&
            (r.rs.viewData 2).proposal.isNone &&
            [Phase.prepare, .preCommit, .commit].all (fun p => !(r.rs.viewData 2).seen p &&
              ((r.rs.viewData 2).votes p).entries.isEmpty) &&
            decide ((commitCert (Quartet.cluster.wiring 1) .asStored r.rs).map QC.nodeHash =
              some (.inl 1)) &&
            decide (r.rs.decidedNodes.keys = [.inl 1]) &&
            (tryAdvance (Quartet.cluster.wiring 1) .asStored r).toOption.any (fun
              (r' : Replica Quartet.crypto) => decide (r'.rs.view = 2)))) = true := by
    decide +kernel
  obtain ⟨s, hr, hc⟩ := play_exists hplay
  simp only [Bool.and_eq_true, List.isEmpty_iff, decide_eq_true_eq] at hc
  obtain ⟨⟨hidle, hrunning⟩, hevent⟩ := hc
  obtain ⟨r, hev, hrest⟩ := toOption_any hevent
  simp only [Bool.and_eq_true, decide_eq_true_eq, Option.isNone_iff_eq_none] at hrest
  obtain ⟨⟨⟨⟨⟨⟨hview, hnew⟩, hprop⟩, hphases⟩, hcert⟩, hkeys⟩, hadvance⟩ := hrest
  obtain ⟨r', hpass, hview'⟩ := toOption_any hadvance
  have hphase : ∀ p, (r.rs.viewData 2).seen p = false ∧
      ((r.rs.viewData 2).votes p).entries = [] := by
    intro p
    have hp := List.all_eq_true.mp hphases p (by cases p <;> decide)
    simpa using hp
  have hreach := Quartet.announced hr hidle hrunning hev
  refine ⟨r, r', hreach, hpass, hview, of_decide_eq_true hview', ?_⟩
  have hbound : ¬ Wraps r r' := by
    rintro ⟨hmax, _⟩
    omega
  refine (pass_idempotent tabled_nodes_apart tabled_nodes_fresh hreach Quartet.first_line ?_ rfl
    hpass hbound).mpr (Or.inr ?_)
  · intro h hh
    refine ⟨0, le_refl _, ?_⟩
    have hfirst : nodeHash Quartet.first = .inl 1 := rfl
    rw [hfirst]
    rcases hh with hin | hcommit
    · have hmem := EntryMap.mem_keys.mpr hin
      rw [hkeys] at hmem
      exact (List.mem_singleton.mp hmem).symm
    · rw [hcert] at hcommit
      exact Option.some.inj hcommit
  · rw [nextQuiet_iff, hview]
    refine ⟨Or.inr (Or.inr (Or.inl hnew)), Or.inl hprop, ?_, Or.inl (hphase _).1,
      Or.inl (hphase _).1, Or.inl (hphase _).1⟩
    intro p
    refine Or.inr (Or.inr ?_)
    intro vote hvote
    rw [(hphase p).2] at hvote
    cases hvote

/-- With two NEW-VIEWs at hand node 1 could propose as soon as it has decided, but
a pass leaves that to the next one. -/
theorem proposal_left_waiting : ∃ (s : System Quartet.crypto) (r r' r'' : Replica Quartet.crypto),
    System.Reach Quartet.cluster Quartet.cluster.Authentic s ∧
      Quartet.cluster.Authentic s.replicas 1 Quartet.announcement ∧
      handleMsg Quartet.cluster.peerKeys (Quartet.cluster.wiring 1) (s 1).replica
        Quartet.announcement = .ok r ∧
      Machine.Reach (Quartet.cluster.wiring 1) 4 ⟨r, passOrder⟩ ∧
      tryAdvance (Quartet.cluster.wiring 1) .asStored r = .ok r' ∧
      tryAdvance (Quartet.cluster.wiring 1) .asStored r' = .ok r'' ∧
      Effect.broadcast (.proposal 2 Quartet.second (some (Quartet.cert .prepare)) 1) ∉ r'.effects ∧
      Effect.broadcast (.proposal 2 Quartet.second (some (Quartet.cert .prepare)) 1) ∈
        r''.effects := by
  have hplay : (System.play Quartet.cluster Quartet.cluster.Authentic Quartet.crowded
      (System.start Quartet.cluster)).any (fun s => (s 1).todo.isEmpty &&
        decide (¬ finished (Quartet.cluster.wiring 1) (s 1).replica) &&
        decide (Quartet.cluster.Authentic s.replicas 1 Quartet.announcement) &&
        (handleMsg Quartet.cluster.peerKeys (Quartet.cluster.wiring 1) (s 1).replica
          Quartet.announcement).toOption.any (fun (r : Replica Quartet.crypto) =>
            (tryAdvance (Quartet.cluster.wiring 1) .asStored r).toOption.any (fun
              (r' : Replica Quartet.crypto) =>
                decide (Effect.broadcast (.proposal 2 Quartet.second
                  (some (Quartet.cert .prepare)) 1) ∉ r'.effects) &&
                (tryAdvance (Quartet.cluster.wiring 1) .asStored r').toOption.any (fun
                  (r'' : Replica Quartet.crypto) =>
                    decide (Effect.broadcast (.proposal 2 Quartet.second
                      (some (Quartet.cert .prepare)) 1) ∈ r''.effects))))) = true := by
    decide +kernel
  obtain ⟨s, hr, hc⟩ := play_exists hplay
  simp only [Bool.and_eq_true, List.isEmpty_iff, decide_eq_true_eq] at hc
  obtain ⟨⟨⟨hidle, hrunning⟩, hauth⟩, hevent⟩ := hc
  obtain ⟨r, hev, hrest⟩ := toOption_any hevent
  obtain ⟨r', hpass, hrest⟩ := toOption_any hrest
  simp only [Bool.and_eq_true, decide_eq_true_eq] at hrest
  obtain ⟨hnot, hagain⟩ := hrest
  obtain ⟨r'', hpass', hsent⟩ := toOption_any hagain
  have hreach := Quartet.announced hr hidle hrunning hev
  exact ⟨s, r, r', r'', hr, hauth, hev, hreach, hpass, hpass', hnot, of_decide_eq_true hsent⟩

end ZkStf
