import ZkStf.Proofs.Playback

namespace ZkStf
open ZkStf.Basis
variable {C : Crypto}

/-- A certificate is formed as soon as one node has a quorum of the votes. -/
theorem formQc_some_iff (ord : Order) (votes : EntryMap Nat (C.Hash × C.Sig)) (ty : MsgType)
    (view : Nat) {quorum : Nat} (hq : 0 < quorum) :
    (∃ qc, formQc ord votes ty view quorum = some qc) ↔
      ∃ nh, quorum ≤ (votesFor votes nh).length := by
  constructor
  · rintro ⟨qc, h⟩
    refine ⟨qc.nodeHash, ?_⟩
    rw [votesFor_length]
    exact formed_count h
  · rintro ⟨nh, hlen⟩
    apply Option.ne_none_iff_exists'.mp
    intro hnone
    have hvote : ∃ vote, vote ∈ votesFor votes nh := by
      apply List.exists_mem_of_length_pos
      omega
    obtain ⟨⟨voter, sig⟩, hvote⟩ := hvote
    have hfew := formQc_eq_none.mp hnone _ (EntryMap.get?_eq_some.mp (mem_votesFor.mp hvote))
    rw [votesFor_length] at hlen
    exact absurd hlen (Nat.not_le.mpr hfew)

section
variable {votes : EntryMap Nat (C.Hash × C.Sig)} {keys : Nat → Option C.Key} {ty : MsgType}
  {view n : Nat}

/-- Two nodes with a quorum of the votes each are one, for nobody votes twice. -/
theorem quorum_unique (hn : 1 ≤ n) (hvoters : ∀ voter, (votes.get? voter).isSome → voter < n)
    {nh nh' : C.Hash} (h : n - (n - 1) / 3 ≤ (votesFor votes nh).length)
    (h' : n - (n - 1) / 3 ≤ (votesFor votes nh').length) : nh' = nh := by
  have hrange : ∀ x, ((votesFor votes x).map Prod.fst).toFinset ⊆ Finset.range n := by
    intro x voter hv
    obtain ⟨⟨_, sig⟩, hmem, rfl⟩ := List.mem_map.mp (List.mem_toFinset.mp hv)
    apply Finset.mem_range.mpr
    apply hvoters
    rw [mem_votesFor.mp hmem]
    rfl
  have hcard : ∀ x,
      ((votesFor votes x).map Prod.fst).toFinset.card = (votesFor votes x).length := by
    intro x
    rw [List.toFinset_card_of_nodup (votesFor_nodup votes x), List.length_map]
  have hmany : (Finset.range n).card + (∅ : Finset Nat).card < 2 * (n - (n - 1) / 3) := by
    rw [Finset.card_range, Finset.card_empty]
    omega
  obtain ⟨voter, hv, hv', _⟩ := Ballots.meet_outside (hrange nh) (hrange nh')
    ((hcard nh).symm ▸ h) ((hcard nh').symm ▸ h') hmany
  obtain ⟨⟨_, sig⟩, hmem, rfl⟩ := List.mem_map.mp (List.mem_toFinset.mp hv)
  obtain ⟨⟨_, sig'⟩, hmem', rfl⟩ := List.mem_map.mp (List.mem_toFinset.mp hv')
  have hsame := (mem_votesFor.mp hmem).symm.trans (mem_votesFor.mp hmem')
  cases hsame
  rfl

/-- A bucket of valid votes makes a certificate as soon as one node has a quorum of
them; `n` is a `u32`. The certificate is the same whichever way the bucket is read,
but for the order of its signatures, and every holder of the keys accepts it. -/
theorem formed_certificates_verify (timeoutBaseMs : Nat) (hn : 1 ≤ n) (hsmall : n < 2 ^ 32)
    (hkeys : ∀ i, (keys i).isSome → i < n)
    (hvalid : ∀ voter nh sig, votes.get? voter = some (nh, sig) →
      ∃ pk, keys voter = some pk ∧ verifyVoteSig pk ty view nh sig = true)
    (quorum : Nat) (hquorum : quorum = (ReplicaState.new C n timeoutBaseMs).quorum) (ord : Order) :
    ((∃ qc, formQc ord votes ty view quorum = some qc) ↔
      ∃ nh, quorum ≤ (votesFor votes nh).length) ∧
    ∀ qc, formQc ord votes ty view quorum = some qc →
      qc.msgType = ty ∧ qc.view = view ∧ qc.sigs.Perm (votesFor votes qc.nodeHash) ∧
      (∀ ord', ∃ qc', formQc ord' votes ty view quorum = some qc' ∧
        qc'.nodeHash = qc.nodeHash ∧ qc'.sigs.Perm qc.sigs) ∧
      verifyQcSync qc quorum keys = true := by
  have hq : quorum = n - (n - 1) / 3 := hquorum
  have hpos : 0 < quorum := by omega
  have hvoters : ∀ voter, (votes.get? voter).isSome → voter < n := by
    intro voter hv
    obtain ⟨⟨nh, sig⟩, hget⟩ := Option.isSome_iff_exists.mp hv
    obtain ⟨pk, hkey, _⟩ := hvalid voter nh sig hget
    apply hkeys
    simp [hkey]
  refine ⟨formQc_some_iff ord votes ty view hpos, ?_⟩
  intro qc h
  obtain ⟨hty, hview, hlen, hnodup, hsigs⟩ := formQc_spec h
  have hperm := formQc_perm h
  refine ⟨hty, hview, hperm, ?_, ?_⟩
  · intro ord'
    have hmany : quorum ≤ (votesFor votes qc.nodeHash).length := by
      rw [← hperm.length_eq]
      exact hlen
    obtain ⟨qc', h'⟩ := (formQc_some_iff ord' votes ty view hpos).mpr ⟨_, hmany⟩
    have hperm' := formQc_perm h'
    have hmany' : quorum ≤ (votesFor votes qc'.nodeHash).length := by
      rw [← hperm'.length_eq]
      exact (formQc_spec h').2.2.1
    have hsame : qc'.nodeHash = qc.nodeHash := quorum_unique hn hvoters (hq ▸ hmany) (hq ▸ hmany')
    refine ⟨qc', h', hsame, ?_⟩
    rw [hsame] at hperm'
    exact hperm'.trans hperm.symm
  · apply verifyQcSync_of_votes hsmall hkeys hlen hnodup
    intro i sig hmem
    rw [hty, hview]
    exact hvalid i qc.nodeHash sig (hsigs i sig hmem)

end

namespace Quartet

/-- Three votes for the first block. -/
def bucket : EntryMap Nat (crypto.Hash × crypto.Sig) :=
  ((EntryMap.empty.insert 0 (.inl 1, (0, ⟨.prepare, 1, .inl 1⟩))).insert 3
    (.inl 1, (3, ⟨.prepare, 1, .inl 1⟩))).insert 1 (.inl 1, (1, ⟨.prepare, 1, .inl 1⟩))

theorem bucket_valid (voter : Nat) (nh : crypto.Hash) (sig : crypto.Sig)
    (h : bucket.get? voter = some (nh, sig)) :
    ∃ pk, cluster.peerKeys voter = some pk ∧ verifyVoteSig pk .prepare 1 nh sig = true := by
  have hmem : (voter, nh, sig) ∈ [(0, Sum.inl 1, (0, ⟨.prepare, 1, .inl 1⟩)),
      (3, .inl 1, (3, ⟨.prepare, 1, .inl 1⟩)), (1, .inl 1, (1, ⟨.prepare, 1, .inl 1⟩))] :=
    EntryMap.get?_eq_some.mp h
  obtain _ | ⟨_, _ | ⟨_, _ | ⟨_, hnone⟩⟩⟩ := hmem
  · exact ⟨(0 : Nat), rfl, rfl⟩
  · exact ⟨(3 : Nat), rfl, rfl⟩
  · exact ⟨(1 : Nat), rfl, rfl⟩
  · cases hnone

end Quartet

theorem quartet_certifies : ∃ qc, formQc .asStored Quartet.bucket .prepare 1 3 = some qc ∧
    verifyQcSync qc 3 Quartet.cluster.peerKeys = true ∧
    ∀ ord, ∃ qc', formQc ord Quartet.bucket .prepare 1 3 = some qc' ∧ qc'.sigs.Perm qc.sigs := by
  have hkeys : ∀ i, (Quartet.cluster.peerKeys i).isSome → i < 4 := by
    intro i hi
    obtain ⟨pk, hkey⟩ := Option.isSome_iff_exists.mp hi
    exact (Cluster.peerKeys_lt hkey).1
  obtain ⟨hforms, hall⟩ := formed_certificates_verify (n := 4) 0 (by decide) (by decide) hkeys
    Quartet.bucket_valid 3 rfl .asStored
  obtain ⟨qc, hqc⟩ := hforms.mpr ⟨.inl 1, by decide +kernel⟩
  obtain ⟨_, _, _, hsame, hpass⟩ := hall qc hqc
  refine ⟨qc, hqc, hpass, ?_⟩
  intro ord
  obtain ⟨qc', hqc', _, hperm⟩ := hsame ord
  exact ⟨qc', hqc', hperm⟩

section
variable {keys : Nat → Option C.Key}

/-- Ids are 32 bits wide, so only a table of all of them can fill the count. -/
theorem signers_card_lt (qc : QC C) (hids : ∀ i, (keys i).isSome → i < 2 ^ 32) {free : Nat}
    (hfree : free < 2 ^ 32) (hnone : keys free = none) : (signers qc keys).card < 2 ^ 32 := by
  have hsub : signers qc keys ⊆ (Finset.range (2 ^ 32)).erase free := by
    intro i hi
    refine Finset.mem_erase.mpr ⟨?_, signers_subset_range qc hids hi⟩
    rintro rfl
    obtain ⟨_, _, pk, hkey, _⟩ := mem_signers.mp hi
    rw [hnone] at hkey
    cases hkey
  have hcard := Finset.card_le_card hsub
  rw [Finset.card_erase_of_mem (Finset.mem_range.mpr hfree), Finset.card_range] at hcard
  omega

theorem signers_congr {qc : QC C} {sigs : List (Nat × C.Sig)}
    (h : ∀ entry, entry ∈ sigs ↔ entry ∈ qc.sigs) :
    signers { qc with sigs := sigs } keys = signers qc keys := by
  ext i
  simp only [mem_signers, h]

theorem signers_mono {qc : QC C} {sigs : List (Nat × C.Sig)} (h : sigs ⊆ qc.sigs) :
    signers { qc with sigs := sigs } keys ⊆ signers qc keys := by
  intro i hi
  obtain ⟨sig, hmem, hvalid⟩ := mem_signers.mp hi
  exact mem_signers.mpr ⟨sig, h hmem, hvalid⟩

/-- The check counts the distinct ids with a valid signature, up to what a `u32`
holds; it depends on nothing but which signatures are listed. -/
theorem distinct_signers_counted (qc : QC C) (quorum : Nat) (keys : Nat → Option C.Key) :
    ((∀ i, (keys i).isSome → i < 2 ^ 32) → (∃ i < 2 ^ 32, keys i = none) →
      (signers qc keys).card < 2 ^ 32) ∧
    ((signers qc keys).card < 2 ^ 32 →
      (∀ front, front <+: qc.sigs → (front.foldl (countSig qc keys) (∅, 0)).2.toNat =
        (signers { qc with sigs := front } keys).card) ∧
      (verifyQcSync qc quorum keys = true ↔ quorum ≤ (signers qc keys).card)) ∧
    ∀ sigs, (∀ entry, entry ∈ sigs ↔ entry ∈ qc.sigs) →
      verifyQcSync { qc with sigs := sigs } quorum keys = verifyQcSync qc quorum keys := by
  refine ⟨?_, ?_, ?_⟩
  · rintro hids ⟨free, hfree, hnone⟩
    exact signers_card_lt qc hids hfree hnone
  · intro hfew
    constructor
    · intro front hfront
      have hsub : signers { qc with sigs := front } keys ⊆ signers qc keys :=
        signers_mono hfront.subset
      have hle := Finset.card_le_card hsub
      have hcount := count_signers { qc with sigs := front } keys
      rw [Nat.mod_eq_of_lt (hle.trans_lt hfew)] at hcount
      exact hcount
    · rw [verifyQcSync_iff, Nat.mod_eq_of_lt hfew]
  · intro sigs hsame
    apply Bool.eq_iff_iff.mpr
    rw [verifyQcSync_iff, verifyQcSync_iff, signers_congr hsame]

end

/-! Key tables of any size, with a signature of every id. -/
namespace FullTable

def keys (n i : Nat) : Option plainCrypto.Key := if i < n then some (i : Nat) else none

def qc (n : Nat) : QC plainCrypto :=
  ⟨.prepare, 1, .inl 1, (List.range n).map (fun i => (i, (i, ⟨.prepare, 1, .inl 1⟩)))⟩

theorem keys_lt {n i : Nat} (h : (keys n i).isSome) : i < n := by
  unfold keys at h
  split at h
  · assumption
  · cases h

theorem signers_eq (n : Nat) : signers (qc n) (keys n) = Finset.range n := by
  apply Finset.Subset.antisymm
  · apply signers_subset_range
    intro i hi
    exact keys_lt hi
  · intro i hi
    have hlt := Finset.mem_range.mp hi
    apply mem_signers.mpr
    refine ⟨(i, ⟨.prepare, 1, .inl 1⟩), ?_, i, if_pos hlt, ?_⟩
    · exact List.mem_map.mpr ⟨i, List.mem_range.mpr hlt, rfl⟩
    · exact tabled_verifies i _

end FullTable

/-- A repeated voter counts once. -/
theorem repeated_voter_counted_once :
    verifyQcSync { FullTable.qc 2 with sigs := (FullTable.qc 2).sigs ++ (FullTable.qc 2).sigs } 3
      (FullTable.keys 2) = false := by
  obtain ⟨hids, hcount, hsame⟩ :=
    distinct_signers_counted (FullTable.qc 2) 3 (FullTable.keys 2)
  rw [hsame _ (by simp)]
  apply Bool.eq_false_iff.mpr
  have hfew : (signers (FullTable.qc 2) (FullTable.keys 2)).card < 2 ^ 32 := by
    apply hids
    · intro i hi
      exact (FullTable.keys_lt hi).trans (by decide)
    · exact ⟨2, by decide, rfl⟩
  rw [Ne, (hcount hfew).2, FullTable.signers_eq]
  decide

/-- With a signature of each of the 2^32 ids the count is back at zero. -/
theorem full_table_miscounted :
    (signers (FullTable.qc (2 ^ 32)) (FullTable.keys (2 ^ 32))).card = 2 ^ 32 ∧
      verifyQcSync (FullTable.qc (2 ^ 32)) 1 (FullTable.keys (2 ^ 32)) = false := by
  have hcard : (signers (FullTable.qc (2 ^ 32)) (FullTable.keys (2 ^ 32))).card = 2 ^ 32 := by
    rw [FullTable.signers_eq, Finset.card_range]
  refine ⟨hcard, ?_⟩
  apply Bool.eq_false_iff.mpr
  rw [Ne, verifyQcSync_iff, hcard]
  decide

end ZkStf
