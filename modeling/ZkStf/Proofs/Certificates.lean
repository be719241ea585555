import Mathlib.Data.Finset.Lattice.Basic
import Mathlib.Data.List.Dedup
import ZkStf.Model.Certificates

namespace ZkStf
open ZkStf.Basis
variable {C : Crypto}

def validSig (qc : QC C) (keys : Nat → Option C.Key) (entry : Nat × C.Sig) : Bool :=
  (keys entry.1).any (fun pk => verifyVoteSig pk qc.msgType qc.view qc.nodeHash entry.2)

/-- The voters a certificate holds a valid signature of. -/
def signers (qc : QC C) (keys : Nat → Option C.Key) : Finset Nat :=
  ((qc.sigs.filter (validSig qc keys)).map Prod.fst).toFinset

theorem countSig_eq (qc : QC C) (keys : Nat → Option C.Key) (seen : Finset Nat)
    (entry : Nat × C.Sig) :
    countSig qc keys (seen, UInt32.ofNat seen.card) entry =
      if validSig qc keys entry then
        (insert entry.1 seen, UInt32.ofNat (insert entry.1 seen).card)
      else (seen, UInt32.ofNat seen.card) := by
  unfold countSig validSig
  dsimp only
  by_cases hm : entry.1 ∈ seen
  · simp [hm]
  · rw [if_neg hm, Finset.card_insert_of_notMem hm, UInt32.ofNat_add]
    cases hk : keys entry.1 with
    | none => simp
    | some pk => simp

theorem count_sigs (qc : QC C) (keys : Nat → Option C.Key) (sigs : List (Nat × C.Sig)) :
    ∀ seen : Finset Nat, sigs.foldl (countSig qc keys) (seen, UInt32.ofNat seen.card) =
      (seen ∪ ((sigs.filter (validSig qc keys)).map Prod.fst).toFinset,
        UInt32.ofNat (seen ∪ ((sigs.filter (validSig qc keys)).map Prod.fst).toFinset).card) := by
  induction sigs with
  | nil => simp
  | cons entry rest ih =>
    intro seen
    rw [List.foldl_cons, countSig_eq]
    by_cases hv : validSig qc keys entry = true
    · rw [if_pos hv, ih, List.filter_cons_of_pos hv, List.map_cons, List.toFinset_cons,
        Finset.union_insert, Finset.insert_union]
    · rw [if_neg hv, ih, List.filter_cons_of_neg hv]

/-- The count of a certificate is the number of distinct voters who signed it. -/
theorem count_signers (qc : QC C) (keys : Nat → Option C.Key) :
    (qc.sigs.foldl (countSig qc keys) (∅, 0)).2.toNat = (signers qc keys).card % 2 ^ 32 := by
  have hfold := count_sigs qc keys qc.sigs ∅
  rw [Finset.card_empty, Finset.empty_union] at hfold
  rw [show (0 : UInt32) = UInt32.ofNat 0 from rfl, hfold]
  exact UInt32.toNat_ofNat'

theorem verifyQcSync_iff (qc : QC C) (quorum : Nat) (keys : Nat → Option C.Key) :
    verifyQcSync qc quorum keys = true ↔ quorum ≤ (signers qc keys).card % 2 ^ 32 := by
  rw [verifyQcSync, count_signers, decide_eq_true_iff]

/-- A certificate that passes is signed by enough distinct voters. -/
theorem verifyQc_signers {qc : QC C} {quorum : Nat} {keys : Nat → Option C.Key}
    (h : verifyQc qc quorum keys = true) : quorum ≤ (signers qc keys).card :=
  ((verifyQcSync_iff qc quorum keys).mp h).trans (Nat.mod_le _ _)

theorem mem_signers {qc : QC C} {keys : Nat → Option C.Key} {i : Nat} :
    i ∈ signers qc keys ↔ ∃ sig, (i, sig) ∈ qc.sigs ∧ ∃ pk, keys i = some pk ∧
      verifyVoteSig pk qc.msgType qc.view qc.nodeHash sig = true := by
  simp [signers, validSig, Option.any_eq_true]

theorem signers_subset_range (qc : QC C) {keys : Nat → Option C.Key} {n : Nat}
    (hkeys : ∀ i, (keys i).isSome → i < n) : signers qc keys ⊆ Finset.range n := by
  intro i hi
  obtain ⟨_, _, pk, hkey, _⟩ := mem_signers.mp hi
  apply Finset.mem_range.mpr
  apply hkeys
  simp [hkey]

/-- A quorum of valid votes of distinct voters makes a certificate that passes. -/
theorem verifyQcSync_of_votes {qc : QC C} {quorum n : Nat} {keys : Nat → Option C.Key}
    (hsmall : n < 2 ^ 32) (hkeys : ∀ i, (keys i).isSome → i < n)
    (hlen : quorum ≤ qc.sigs.length) (hnodup : (qc.sigs.map Prod.fst).Nodup)
    (hvalid : ∀ i sig, (i, sig) ∈ qc.sigs → ∃ pk, keys i = some pk ∧
      verifyVoteSig pk qc.msgType qc.view qc.nodeHash sig = true) :
    verifyQcSync qc quorum keys = true := by
  have hsub : (qc.sigs.map Prod.fst).toFinset ⊆ signers qc keys := by
    intro i hi
    obtain ⟨⟨_, sig⟩, hmem, rfl⟩ := List.mem_map.mp (List.mem_toFinset.mp hi)
    exact mem_signers.mpr ⟨sig, hmem, hvalid _ sig hmem⟩
  have hfew := Finset.card_le_card (signers_subset_range qc hkeys)
  rw [Finset.card_range] at hfew
  apply (verifyQcSync_iff qc quorum keys).mpr
  calc quorum ≤ qc.sigs.length := hlen
    _ = (qc.sigs.map Prod.fst).toFinset.card := by
      rw [List.toFinset_card_of_nodup hnodup, List.length_map]
    _ ≤ (signers qc keys).card := Finset.card_le_card hsub
    _ = (signers qc keys).card % 2 ^ 32 := (Nat.mod_eq_of_lt (hfew.trans_lt hsmall)).symm

/-- A group holds the votes for its node, in reading order. -/
theorem groupByNode_get? (votes : List (Nat × C.Hash × C.Sig)) (nh : C.Hash) :
    ((groupByNode votes).get? nh).getD [] =
      (votes.filter (fun vote => decide (vote.2.1 = nh))).map (fun vote => (vote.1, vote.2.2)) := by
  unfold groupByNode
  induction votes using List.reverseRecOn with
  | nil => rfl
  | append_singleton votes vote ih =>
    rw [List.foldl_append, List.foldl_cons, List.foldl_nil, List.filter_append, List.map_append,
      ← ih, EntryMap.get?_insert]
    by_cases h : nh = vote.2.1
    · subst nh
      simp
    · have h' : ¬ vote.2.1 = nh := fun he => h he.symm
      simp [h, h']

/-- A certificate is formed of one group that is large enough. -/
theorem formQc_group {ord : Order} {votes : EntryMap Nat (C.Hash × C.Sig)} {ty : MsgType}
    {view quorum : Nat} {qc : QC C} (h : formQc ord votes ty view quorum = some qc) :
    qc.msgType = ty ∧ qc.view = view ∧ quorum ≤ qc.sigs.length ∧
      (groupByNode (ord.list (.votes ty) votes.entries)).get? qc.nodeHash = some qc.sigs := by
  unfold formQc at h
  dsimp only at h
  obtain ⟨⟨nh, sigs⟩, hfind, rfl⟩ := Option.map_eq_some_iff.mp h
  have hgroup := (ord.perm _ _).mem_iff.mp (List.mem_of_find?_eq_some hfind)
  exact ⟨rfl, rfl, by simpa using List.find?_some hfind, EntryMap.get?_eq_some.mpr hgroup⟩

/-- The votes of a bucket for one node. -/
def votesFor (votes : EntryMap Nat (C.Hash × C.Sig)) (nh : C.Hash) : List (Nat × C.Sig) :=
  (votes.entries.filter (fun vote => decide (vote.2.1 = nh))).map (fun vote => (vote.1, vote.2.2))

theorem votesFor_length (votes : EntryMap Nat (C.Hash × C.Sig)) (nh : C.Hash) :
    (votesFor votes nh).length = votes.entries.countP (fun vote => decide (vote.2.1 = nh)) := by
  simp [votesFor, List.countP_eq_length_filter]

theorem mem_votesFor {votes : EntryMap Nat (C.Hash × C.Sig)} {nh : C.Hash} {voter : Nat}
    {sig : C.Sig} : (voter, sig) ∈ votesFor votes nh ↔ votes.get? voter = some (nh, sig) := by
  rw [EntryMap.get?_eq_some]
  simp [votesFor]

theorem votesFor_nodup (votes : EntryMap Nat (C.Hash × C.Sig)) (nh : C.Hash) :
    ((votesFor votes nh).map Prod.fst).Nodup := by
  rw [votesFor, List.map_map]
  exact votes.nodup.sublist (List.filter_sublist.map Prod.fst)

section
variable {ord : Order} {votes : EntryMap Nat (C.Hash × C.Sig)} {ty : MsgType} {view quorum : Nat}
  {qc : QC C}

/-- A certificate holds exactly the votes for its node. -/
theorem formQc_perm (h : formQc ord votes ty view quorum = some qc) :
    qc.sigs.Perm (votesFor votes qc.nodeHash) := by
  obtain ⟨_, _, _, hgroup⟩ := formQc_group h
  have hsigs := groupByNode_get? (ord.list (.votes ty) votes.entries) qc.nodeHash
  rw [hgroup, Option.getD_some] at hsigs
  rw [hsigs]
  exact ((ord.perm (.votes ty) votes.entries).filter _).map _

/-- What a formed certificate is made of: a quorum of entries of the bucket, no
voter twice, all for one node. -/
theorem formQc_spec (h : formQc ord votes ty view quorum = some qc) :
    qc.msgType = ty ∧ qc.view = view ∧ quorum ≤ qc.sigs.length ∧
      (qc.sigs.map Prod.fst).Nodup ∧
      ∀ i sig, (i, sig) ∈ qc.sigs → votes.get? i = some (qc.nodeHash, sig) := by
  obtain ⟨hty, hview, hlen, _⟩ := formQc_group h
  have hperm := formQc_perm h
  refine ⟨hty, hview, hlen, ?_, ?_⟩
  · exact (hperm.map Prod.fst).nodup_iff.mpr (votesFor_nodup votes qc.nodeHash)
  · intro i sig hm
    exact mem_votesFor.mp (hperm.mem_iff.mp hm)

theorem formed_count (h : formQc ord votes ty view quorum = some qc) :
    quorum ≤ votes.entries.countP (fun e => decide (e.2.1 = qc.nodeHash)) := by
  obtain ⟨_, _, hlen, _⟩ := formQc_group h
  rw [← votesFor_length, ← (formQc_perm h).length_eq]
  exact hlen

end

/-- No node has a quorum of the votes in a bucket. -/
def NoQuorum (votes : EntryMap Nat (C.Hash × C.Sig)) (quorum : Nat) : Prop :=
  ∀ vote ∈ votes.entries,
    votes.entries.countP (fun e => decide (e.2.1 = vote.2.1)) < quorum

/-- Every group of votes has a vote in it. -/
theorem groupByNode_vote {votes : List (Nat × C.Hash × C.Sig)} {nh : C.Hash}
    {sigs : List (Nat × C.Sig)} (h : (groupByNode votes).get? nh = some sigs) :
    ∃ vote ∈ votes, vote.2.1 = nh := by
  unfold groupByNode at h
  induction votes using List.reverseRecOn generalizing sigs with
  | nil => cases h
  | append_singleton votes vote ih =>
    rw [List.foldl_append, List.foldl_cons, List.foldl_nil, EntryMap.get?_insert] at h
    split at h
    · rename_i hnh
      exact ⟨vote, by simp, hnh.symm⟩
    · obtain ⟨vote', hmem, hnh⟩ := ih h
      exact ⟨vote', by simp [hmem], hnh⟩

theorem group_length {ord : Order} {votes : EntryMap Nat (C.Hash × C.Sig)} {ty : MsgType}
    {nh : C.Hash} {sigs : List (Nat × C.Sig)}
    (h : (groupByNode (ord.list (.votes ty) votes.entries)).get? nh = some sigs) :
    sigs.length = votes.entries.countP (fun e => decide (e.2.1 = nh)) := by
  have hsigs := groupByNode_get? (ord.list (.votes ty) votes.entries) nh
  rw [h, Option.getD_some] at hsigs
  rw [hsigs, List.length_map, ← List.countP_eq_length_filter]
  exact (ord.perm _ _).countP_eq _

/-- Whether a certificate can be formed does not depend on how the votes are read. -/
theorem formQc_eq_none {ord : Order} {votes : EntryMap Nat (C.Hash × C.Sig)} {ty : MsgType}
    {view quorum : Nat} : formQc ord votes ty view quorum = none ↔ NoQuorum votes quorum := by
  have hperm := ord.perm (.votes ty) votes.entries
  simp only [formQc, Option.map_eq_none_iff, List.find?_eq_none, decide_eq_true_eq, Nat.not_le,
    (ord.perm (.byNode ty) _).mem_iff]
  constructor
  · intro h vote hvote
    have hgroup := groupByNode_get? (ord.list (.votes ty) votes.entries) vote.2.1
    cases hget : (groupByNode (ord.list (.votes ty) votes.entries)).get? vote.2.1 with
    | none =>
      rw [hget, Option.getD_none] at hgroup
      have hmem : vote ∈ (ord.list (.votes ty) votes.entries).filter
          (fun e => decide (e.2.1 = vote.2.1)) := by
        simp [hperm.mem_iff, hvote]
      rw [List.map_eq_nil_iff.mp hgroup.symm] at hmem
      cases hmem
    | some sigs =>
      rw [← group_length hget]
      exact h _ (EntryMap.get?_eq_some.mp hget)
  · rintro h ⟨nh, sigs⟩ hgroup
    have hget := EntryMap.get?_eq_some.mpr hgroup
    obtain ⟨vote, hvote, rfl⟩ := groupByNode_vote hget
    rw [group_length hget]
    exact h vote (hperm.mem_iff.mp hvote)

end ZkStf
