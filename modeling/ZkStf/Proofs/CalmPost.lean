import ZkStf.Proofs.CalmOrder
import ZkStf.Proofs.Standstill

namespace ZkStf
open ZkStf.Basis
open ZkStf.Basis.Ballots
variable {C : Crypto}

/-- What is left of a message at a node that has taken it in. -/
def Absorbed (r : Replica C) : Wire C → Prop
  | .hello _ _ => True
  | .proposal v node _ _ => (r.rs.viewData v).proposal.isSome ∧
      (r.rs.tree.get? (nodeHash node)).isSome
  | .phaseQc ty v _ _ => ∀ p, ty = announcedBy p → (r.rs.viewData v).seen p = true
  | .vote ty v _ voter _ => ∀ p, ty = msgTypeOf p →
      (((r.rs.viewData v).votes p).get? voter).isSome
  | .newView v _ sender => ((r.rs.viewData v).newViewMsgs.get? sender).isSome

section
variable {K : Cluster C} {rs : Nat → Replica C} {i : Nat} {r r' : Replica C} {msg : Wire C}

theorem Absorbed.move {keys : Nat → Option C.Key} {arrives : Wire C → Prop} {w : Wiring C}
    (h : Absorbed r msg) (hm : Move keys arrives w r r') : Absorbed r' msg := by
  cases msg with
  | hello => trivial
  | proposal v node justify sender =>
    refine ⟨?_, hm.tree_keeps h.2⟩
    obtain ⟨x, hx⟩ := Option.isSome_iff_exists.mp h.1
    rw [(hm.grows v).proposal x hx]
    rfl
  | phaseQc ty v qc sender => exact fun p hp => (hm.grows v).seen p (h p hp)
  | vote ty v nh voter sig => exact fun p hp => (hm.grows v).votes p voter (h p hp)
  | newView v justify sender => exact (hm.grows v).newViews sender h

/-- A message that was sent carries certificates that its receivers accept. -/
theorem Candid.justify (hc : Candid K rs) {j : Nat} (hj : K.Honest j) (hi : K.Honest i)
    (hs : (rs j).HasSent msg) : ∀ qc ∈ msg.certs,
    verifyQc qc (rs i).rs.quorum K.peerKeys = true := by
  intro qc hqc
  obtain ⟨e, he, hm⟩ := hs
  rw [(hc.sane.holds i hi).quorum]
  exact (hc.genuine j hj).sent e he msg hm qc hqc

theorem verifyJustify_of {quorum : Nat} {keys : Nat → Option C.Key} {justify : Option (QC C)}
    (h : ∀ qc ∈ justify.toList, verifyQc qc quorum keys = true) :
    verifyJustify justify quorum keys = true := by
  cases justify with
  | none => rfl
  | some qc => exact h qc (by simp)

theorem Calmed.takes_proposal (h : Calmed K rs) (hK : K.Faultless) (hi : K.Honest i) {v : Nat}
    {node : Node C} {justify : Option (QC C)} {sender : Nat}
    (hp : K.Posted rs i (.proposal v node justify sender))
    (hrun : handleProposal K.peerKeys (K.wiring i) v node justify sender (rs i) = .ok r') :
    Absorbed r' (.proposal v node justify sender) := by
  obtain ⟨hj, hsent⟩ := h.candid.sender hK.free hp rfl
  have hon := (h.course sender hj).proposals v node justify sender hsent
  obtain ⟨_, hlead, _⟩ := (h.candid.minutes sender hj).grounded v node justify sender hsent
  rw [← (h.candid.sane.holds i hi).leader] at hlead
  have hjust : verifyJustify justify (rs i).rs.quorum K.peerKeys = true :=
    verifyJustify_of (h.candid.justify hj hi hsent)
  unfold handleProposal at hrun
  rw [if_neg (by simpa using hlead), if_neg (by simp [hjust]), if_neg (by simpa using hon.parent)]
    at hrun
  have hback := chores_backstage (kick_chores hrun)
  refine ⟨?_, ?_⟩
  · rw [hback.viewData]
    simp only [withRs_rs, stashProposal_eq, vdMut_viewData, ↓reduceIte]
    cases ((rs i).rs.viewData v).proposal <;> rfl
  · rw [hback.tree]
    exact EntryMap.isSome_insert.mpr (Or.inl rfl)

theorem Calmed.takes_phaseQc (h : Calmed K rs) (hK : K.Faultless) (hi : K.Honest i) {ty : MsgType}
    {v : Nat} {qc : QC C} {sender : Nat} (hp : K.Posted rs i (.phaseQc ty v qc sender))
    (hrun : handlePhaseQc K.peerKeys ty v qc sender (rs i) = .ok r') :
    Absorbed r' (.phaseQc ty v qc sender) := by
  obtain ⟨hj, hsent⟩ := h.candid.sender hK.free hp rfl
  obtain ⟨p, rfl, htype, hview⟩ := (h.course sender hj).typed ty v qc sender hsent
  have hlead : sender = (rs i).rs.leaderFor v := by
    rw [(h.candid.sane.holds i hi).leader]
    obtain ⟨j, hj, _, hsent | hsent⟩ := hp
    · obtain ⟨rfl, hlead, _⟩ := h.candid.addressed j _ hsent
      exact hlead.symm.trans ((h.candid.sane.holds sender hj).leader v)
    · exact (h.candid.addressed j _ hsent).elim
  have hphase : certifiedPhase (announcedBy p) = some p := by cases p <;> rfl
  have hsigs := h.candid.justify hj hi hsent qc (by simp [Wire.certs])
  unfold handlePhaseQc at hrun
  rw [if_neg (by simpa using hlead), hphase] at hrun
  dsimp only at hrun
  rw [if_neg (by simp [htype, hview]), if_neg (by simp [hsigs])] at hrun
  cases hrun
  intro q hq
  obtain rfl := announcedBy_inj hq
  rw [withRs_rs, receiveQc_eq]
  exact (stageQc_seen ..).mpr (Or.inr ⟨rfl, rfl⟩)

theorem Calmed.takes_vote (h : Calmed K rs) (hK : K.Faultless) (hi : K.Honest i) {ty : MsgType}
    {v : Nat} {nh : C.Hash} {voter : Nat} {sig : C.Sig}
    (hp : K.Posted rs i (.vote ty v nh voter sig))
    (hrun : handleVote K.peerKeys (K.wiring i) ty v nh voter sig (rs i) = .ok r') :
    Absorbed r' (.vote ty v nh voter sig) := by
  obtain ⟨j, hj, _, hsent | hsent⟩ := hp
  · exact (h.candid.addressed j _ hsent).elim
  obtain ⟨rfl, hpeer, _, _, rfl, _⟩ := h.candid.addressed j _ hsent
  have hlead : (rs i).rs.leaderFor v = (K.wiring i).myId := by
    rw [(h.candid.sane.holds i hi).leader, ← (h.candid.sane.holds voter hj).leader, ← hpeer]
    rfl
  have hkey : K.peerKeys voter = some (K.key voter) := if_pos hj.1
  have hsig : verifyVoteSig (K.key voter) ty v nh (signVote (K.wiring voter).sk ty v nh) = true :=
    hK.signs voter _ hj
  intro p hty
  subst ty
  have hphase : votedPhase (msgTypeOf p) = some p := by cases p <;> rfl
  unfold handleVote at hrun
  rw [if_neg (by simpa using hlead), if_neg (by simp [hkey, hsig]), hphase] at hrun
  cases hrun
  simp only [withRs_rs, recordVote, vdMut_viewData, ↓reduceIte, Function.update_self]
  exact EntryMap.isSome_insertNew.mpr (Or.inl rfl)

theorem Calmed.takes_newView (h : Calmed K rs) (hK : K.Faultless) (hi : K.Honest i) {v : Nat}
    {justify : Option (QC C)} {sender : Nat} (hp : K.Posted rs i (.newView v justify sender))
    (hrun : handleNewView K.peerKeys (K.wiring i) v justify sender (rs i) = .ok r') :
    Absorbed r' (.newView v justify sender) := by
  obtain ⟨hs, hsaid⟩ := h.candid.sender hK.free hp rfl
  obtain ⟨j, hj, _, hsent | hsent⟩ := hp
  · exact (h.candid.addressed j _ hsent).elim
  obtain ⟨_, hpeer, _, hlt⟩ := h.candid.addressed j _ hsent
  have hle := h.view_le hK.free hj
  have hsmall := numBlocks_small K
  have hadd : addOne (K.wiring i) v = .ok (v + 1) := if_pos (by omega)
  have hlead : (rs i).rs.leaderFor (v + 1) = (K.wiring i).myId := by
    rw [(h.candid.sane.holds i hi).leader, ← (h.candid.sane.holds j hj).leader, ← hpeer]
    rfl
  have hjust : verifyJustify justify (rs i).rs.quorum K.peerKeys = true :=
    verifyJustify_of (h.candid.justify hs hi hsaid)
  unfold handleNewView at hrun
  rw [hadd] at hrun
  dsimp only at hrun
  rw [if_neg (by simpa using hlead), if_neg (by simp [hjust])] at hrun
  cases hrun
  simp only [Absorbed, withRs_rs, recordNewView, vdMut_viewData, ↓reduceIte]
  exact EntryMap.isSome_insertNew.mpr (Or.inl rfl)

/-- Nothing that the post brings in a calm run is turned down. -/
theorem Calmed.takes (h : Calmed K rs) (hK : K.Faultless) (hi : K.Honest i)
    (hp : K.Posted rs i msg) (hrun : handleMsg K.peerKeys (K.wiring i) (rs i) msg = .ok r') :
    Absorbed r' msg := by
  cases msg with
  | hello => trivial
  | proposal => exact h.takes_proposal hK hi hp hrun
  | phaseQc => exact h.takes_phaseQc hK hi hp hrun
  | vote => exact h.takes_vote hK hi hp hrun
  | newView => exact h.takes_newView hK hi hp hrun

theorem step_absorbed {keys : Nat → Option C.Key} {w : Wiring C} {ev : Option (Event C)}
    {m m' : Machine C} (hs : Machine.Step keys w ev m m') (hw : ¬ Wraps m.replica m'.replica)
    (h : Absorbed m.replica msg) : Absorbed m'.replica msg := by
  have hm : Moves keys (fun _ => True) w m.replica m'.replica :=
    step_moves hs hw (fun _ _ => trivial)
  exact moves_invariant (P := fun r => Absorbed r msg) (fun _ _ h hm => h.move hm) hm h

/-- What a calm run has brought to a node by its messages and its timers. -/
theorem calm_watched (hinj : Function.Injective (nodeHash (C := C)))
    (hgen : ∀ node : Node C, nodeHash node ≠ genesisHash C) (hK : K.Faultless)
    {log : Nat → List (Event C)} {s : System C} (hcalm : K.Calm log s) :
    ∀ i, K.Honest i → Watched (K.wiring i) (log i) (s i) ∧
      ∀ msg, .message msg ∈ log i → Absorbed (s i).replica msg := by
  induction hcalm with
  | start => exact fun i _ => ⟨Watched.start, fun _ hmem => nomatch hmem⟩
  | @step log s j ev m hprev hj hpost htimer hstep hbound ih =>
    intro i hi
    by_cases hij : i = j
    · subst i
      rw [Function.update_self, Function.update_self]
      obtain ⟨hwatched, habsorbed⟩ := ih j hj
      refine ⟨hwatched.step (hprev.reach.machine j) hstep hbound htimer, ?_⟩
      intro msg hmem
      rcases List.mem_append.mp hmem with hmem | hmem
      · exact step_absorbed hstep hbound (habsorbed msg hmem)
      · obtain rfl := Option.mem_toList.mp hmem
        generalize he : s j = mj at hstep
        cases hstep with
        | event _ r r' running ran =>
          have hr : s.replicas j = r := congrArg Machine.replica he
          refine (hprev.calmed hinj hgen hK).takes hK hj (hpost msg rfl) ?_
          rw [hr]
          exact ran
    · rw [Function.update_of_ne hij, Function.update_of_ne hij]
      exact ih i hi

end
end ZkStf
