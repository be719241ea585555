import ZkStf.Proofs.CalmOrder
import ZkStf.Proofs.Framing

namespace ZkStf
open ZkStf.Basis
open ZkStf.Basis.Ballots (Phase)
variable {C : Crypto}

section
variable (short : C.Sig → Prop)

/-- A certificate whose numbers fit their types, and whose signatures are as short as
signatures should be. -/
structure QC.InRange (qc : QC C) : Prop where
  view : qc.view < 2 ^ 64
  count : qc.sigs.length < 2 ^ 64
  sigs : ∀ entry ∈ qc.sigs, entry.1 < 2 ^ 32 ∧ short entry.2

def Wire.InRange : Wire C → Prop
  | .hello nodeId pubkey => nodeId < 2 ^ 32 ∧ pubkey.length = 32
  | .proposal view _ justify sender =>
    view < 2 ^ 64 ∧ sender < 2 ^ 32 ∧ ∀ qc, justify = some qc → qc.InRange short
  | .phaseQc _ view justify sender => view < 2 ^ 64 ∧ sender < 2 ^ 32 ∧ justify.InRange short
  | .vote _ view _ voter sig => view < 2 ^ 64 ∧ voter < 2 ^ 32 ∧ short sig
  | .newView view justify sender =>
    view < 2 ^ 64 ∧ sender < 2 ^ 32 ∧ ∀ qc, justify = some qc → qc.InRange short

/-- What is assumed of the serialization beside the round trip: how long it makes a
message of so many signatures. -/
structure Codec.Compact (codec : Codec C) (fixed perSig : Nat) : Prop where
  inverts : codec.Inverts
  length : ∀ msg, msg.InRange short → ∃ bytes, codec.serialize msg = some bytes ∧
    bytes.length ≤ fixed + perSig * msg.signatures.length

/-- A certificate as nodes make them: at most one signature of each node. -/
structure Slim (n b : Nat) (qc : QC C) : Prop where
  once : (qc.sigs.map Prod.fst).Nodup
  sigs : ∀ entry ∈ qc.sigs, entry.1 < n ∧ short entry.2
  view : qc.view < b

/-- A vote as nodes make them. -/
def SlimVote (n b : Nat) (_ : Phase) (v voter : Nat) (_ : C.Hash) (sig : C.Sig) : Prop :=
  voter < n ∧ v < b ∧ short sig

/-- Everything an honest node holds is small. -/
def Cluster.Slim (K : Cluster C) (b : Nat) (rs : Nat → Replica C) : Prop :=
  ∀ i, K.Honest i → Holds K.n (ZkStf.Slim short K.n b) (SlimVote short K.n b) (rs i)

end

section
variable {short : C.Sig → Prop} {K : Cluster C} {net : Delivery C} {rs : Nat → Replica C}
  {s : System C} {i n b : Nat} {r' : Replica C}

theorem Slim.length_le {qc : QC C} (h : Slim short n b qc) : qc.sigs.length ≤ n := by
  have hsub : qc.sigs.map Prod.fst ⊆ List.range n := by
    intro voter hv
    obtain ⟨entry, he, rfl⟩ := List.mem_map.mp hv
    exact List.mem_range.mpr (h.sigs entry he).1
  simpa using (List.subperm_of_subset h.once hsub).length_le

theorem Slim.inRange {qc : QC C} (h : Slim short n (2 ^ 64) qc) (hn : n < 2 ^ 32) :
    qc.InRange short := by
  have hlen := h.length_le
  refine ⟨h.view, by omega, ?_⟩
  intro entry he
  obtain ⟨hvoter, hshort⟩ := h.sigs entry he
  exact ⟨by omega, hshort⟩

theorem slim_feeds (hshort : ∀ pk d sig, C.verify pk d sig = true → short sig)
    (hsign : K.SignsValidly) (h : Candid K rs) (hslim : K.Slim short b rs)
    (hi : K.Honest i) (hvoter : Voter (K.Certifies (votesOf (Function.update rs i r'))) r')
    (hviews : ∀ j, K.Honest j → (rs j).rs.view < b) (hview : r'.rs.view < b) :
    Feeds K.peerKeys (K.Posted rs i) (K.wiring i) K.n (ZkStf.Slim short K.n b)
      (SlimVote short K.n b) r'.effects where
  certs := by
    rintro msg ⟨j, hj, _, hsent⟩ qc hqc _
    rcases hsent with hsent | hsent
    · exact (hslim j hj).sent _ hsent msg rfl qc hqc
    · exact (hslim j hj).sent _ hsent msg rfl qc hqc
  votes := by
    rintro p v nh voter sig ⟨j, hj, _, hsent⟩ _
    rcases hsent with hsent | hsent
    · cases h.addressed j _ hsent
    · obtain ⟨rfl, _, _, hle, rfl, _⟩ := h.addressed j _ hsent
      exact ⟨hj.1, hle.trans_lt (hviews _ hj), hshort _ _ _ (hsign _ _ hj)⟩
  cast := by
    intro p v nh verdict hs
    exact ⟨hi.1, (hvoter.cast _ v nh ⟨verdict, hs⟩).1.trans_lt hview,
      hshort _ _ _ (hsign i _ hi)⟩
  formed := by
    intro p qc _ hquorum hnodup hvotes
    -- a quorum is not empty, so the view of the certificate is that of a vote
    have hpos : 0 < qc.sigs.length := by
      have hn : 0 < K.n := Nat.zero_lt_of_lt hi.1
      omega
    obtain ⟨entry, he⟩ := List.exists_mem_of_length_pos hpos
    refine ⟨hnodup, fun entry he => ?_, (hvotes entry.1 entry.2 he).2.1⟩
    obtain ⟨hvoter, _, hsig⟩ := hvotes entry.1 entry.2 he
    exact ⟨hvoter, hsig⟩

theorem reach_slim (hshort : ∀ pk d sig, C.verify pk d sig = true → short sig)
    (hsign : K.SignsValidly) (hr : System.Reach K K.Posted s)
    (hviews : ∀ j, K.Honest j → (s j).replica.rs.view < b) : K.Slim short b s.replicas := by
  -- views only grow: a bound on those of the last state holds all along the run
  refine (system_invariant (P := fun rs => Candid K rs ∧
    ((∀ j, K.Honest j → (rs j).rs.view < b) → K.Slim short b rs)) K.posted_growing ?_ ?_ hr).2
    hviews
  · exact ⟨.start K, fun _ _ _ => .start⟩
  · intro rs i r' hi h hm
    have hcandid := h.1.move hsign hi hm
    refine ⟨hcandid, fun hviews j hj => ?_⟩
    have hnow : r'.rs.view < b := by simpa using hviews i hi
    have hbefore : ∀ j, K.Honest j → (rs j).rs.view < b := by
      intro j hj
      by_cases hji : j = i
      · subst j
        exact hm.view_mono.trans_lt hnow
      · simpa [hji] using hviews j hj
    have hslim := h.2 hbefore
    by_cases hji : j = i
    · subst j
      have hvoter := hcandid.sane.voter i hi
      rw [Function.update_self] at hvoter ⊢
      exact (hslim i hi).move (slim_feeds hshort hsign h.1 hslim hi hvoter hbefore hnow) hm
    · rw [Function.update_of_ne hji]
      exact hslim j hj

/-- A view is a `u64`, whichever way the build adds. -/
theorem System.Reach.view_lt (hr : System.Reach K net s) (i : Nat) :
    (s i).replica.rs.view < 2 ^ 64 := by
  have hnext : ∀ {v v' : Nat}, addOne (K.wiring i) v = .ok v' → v' < 2 ^ 64 := by
    intro v v' h
    unfold addOne at h
    split at h
    · cases h
      assumption
    split at h
    · cases h
    · cases h
      decide
  have hm := hr.machine i
  generalize s i = m at hm
  induction hm with
  | start =>
    rw [Machine.start, startProtocol, enterNewView_view]
    decide
  | step keys ev _ hstep _ ih =>
    rcases step_view hstep with hsame | hadd
    · rw [hsame]
      exact ih
    · exact hnext hadd

/-- Whatever a node sends is in range, and has at most as many signatures as there
are nodes. -/
theorem Cluster.Slim.sent (h : K.Slim short (2 ^ 64) rs)
    (hshort : ∀ pk d sig, C.verify pk d sig = true → short sig) (hsign : K.SignsValidly)
    (hi : K.Honest i) (haddr : ∀ e ∈ (rs i).effects, e.Addressed (K.wiring i) (rs i))
    (hview : (rs i).rs.view < 2 ^ 64) {e : Effect C} {msg : Wire C} (he : e ∈ (rs i).effects)
    (hs : e.sent = some msg) : msg.InRange short ∧ msg.signatures.length ≤ K.n := by
  have hid : i < 2 ^ 32 := hi.1.trans K.small
  have hcert : ∀ qc ∈ msg.certs, qc.InRange short ∧ qc.sigs.length ≤ K.n := by
    intro qc hqc
    have hslim := (h i hi).sent e he msg hs qc hqc
    exact ⟨hslim.inRange K.small, hslim.length_le⟩
  have hjustify : ∀ justify : Option (QC C), (∀ qc ∈ justify.toList,
      qc.InRange short ∧ qc.sigs.length ≤ K.n) → (∀ qc, justify = some qc → qc.InRange short) ∧
      (justify.toList.flatMap (fun qc =>
        qc.sigs.map (fun entry => (qc.digest, entry.1, entry.2)))).length ≤ K.n := by
    intro justify hall
    cases justify with
    | none => exact ⟨by simp, by simp⟩
    | some qc =>
      obtain ⟨hrange, hlen⟩ := hall qc (by simp)
      refine ⟨?_, by simpa using hlen⟩
      rintro _ ⟨⟩
      exact hrange
  have ha := haddr e he
  cases e with
  | broadcast msg' =>
    cases hs
    cases msg with
    | proposal v leaf high sender =>
      obtain ⟨rfl, _, hle⟩ := ha
      obtain ⟨hrange, hlen⟩ := hjustify high hcert
      exact ⟨⟨hle.trans_lt hview, hid, hrange⟩, hlen⟩
    | phaseQc ty v qc sender =>
      obtain ⟨rfl, _, hle, _⟩ := ha
      obtain ⟨hrange, hlen⟩ := hcert qc (by simp [Wire.certs])
      exact ⟨⟨hle.trans_lt hview, hid, hrange⟩, by simpa [Wire.signatures, Wire.certs] using hlen⟩
    | _ => exact ha.elim
  | sendTo peer msg' =>
    cases hs
    cases msg with
    | vote ty v nh voter sig =>
      obtain ⟨rfl, _, _, hle, rfl, _⟩ := ha
      exact ⟨⟨hle.trans_lt hview, hid, hshort _ _ _ (hsign _ _ hi)⟩, Nat.succ_le_of_lt
        (Nat.zero_lt_of_lt hi.1)⟩
    | newView v justify sender =>
      obtain ⟨rfl, _, _, hlt⟩ := ha
      obtain ⟨hrange, hlen⟩ := hjustify justify hcert
      exact ⟨⟨hlt.trans hview, hid, hrange⟩, hlen⟩
    | _ => exact ha.elim
  | _ => cases hs

/-- The messages of a node get through a connection as bytes: written to the stream
one after the other, in whatever order they are sent, they are read off it as they
were, and nothing else is. The serialization must undo itself, and leave room in a
frame for a certificate of all nodes. -/
theorem sent_messages_cross (codec : Codec C) {fixed perSig : Nat}
    (hcodec : codec.Compact short fixed perSig) (hroom : fixed + perSig * K.n < 2 ^ 32)
    (hshort : ∀ pk d sig, C.verify pk d sig = true → short sig) (hsign : K.SignsValidly)
    (hr : System.Reach K K.Posted s) (hi : K.Honest i) (msgs : List (Wire C))
    (hsent : ∀ msg ∈ msgs, ∃ e ∈ (s i).replica.effects, e.sent = some msg) :
    ∃ stream, (writerTask codec msgs).on [] = (.ok (), stream) ∧
      ∀ out, Ends (readerRound codec) (stream, []) out ↔ out = (msgs, .unexpectedEof) := by
  have hslim := reach_slim hshort hsign hr (fun j _ => hr.view_lt j)
  have hfit : ∀ msg ∈ msgs, codec.Fits msg := by
    intro msg hm
    obtain ⟨e, he, hs⟩ := hsent msg hm
    obtain ⟨hrange, hcount⟩ := hslim.sent hshort hsign hi (reach_addressed (hr.machine i))
      (hr.view_lt i) he hs
    obtain ⟨bytes, hser, hlen⟩ := hcodec.length msg hrange
    have hmost := Nat.mul_le_mul_left perSig hcount
    exact ⟨bytes, hser, by omega⟩
  refine ⟨msgs.flatMap codec.frame, writerTask_on hfit [], fun out => ?_⟩
  exact (readerRound_whole hcodec.inverts hfit).iff

end
namespace Bytewise

def Short (sig : crypto.Sig) : Prop := List.length sig = 64

@[simp] theorem msgType_fits (ty : MsgType) : msgType.fits ty = true := by
  cases ty <;> decide

@[simp] theorem msgType_length (ty : MsgType) : (msgType.encode ty).length = 4 :=
  leBytes_length 4 _

@[simp] theorem tag_fits (t : WireTag) : tag.fits t = true := by
  cases t <;> decide

@[simp] theorem tag_length (t : WireTag) : (tag.encode t).length = 4 := leBytes_length 4 _

@[simp] theorem u32_fits (x : Nat) : u32.fits x = decide (x < 2 ^ 32) := rfl

@[simp] theorem u32_length (x : Nat) : (u32.encode x).length = 4 := leBytes_length 4 x

@[simp] theorem u64_fits (x : Nat) : u64.fits x = decide (x < 2 ^ 64) := rfl

@[simp] theorem u64_length (x : Nat) : (u64.encode x).length = 8 := leBytes_length 8 x

@[simp] theorem hash_fits (h : crypto.Hash) : hash.fits h = true := by
  obtain ⟨l, hl⟩ := h
  simpa [hash, Format.sized, Format.filterMap, Format.raw] using hl

@[simp] theorem hash_length (h : crypto.Hash) : (hash.encode h).length = 32 := h.2

@[simp] theorem node_fits (leaf : Node crypto) : node.fits leaf = true := by
  have hheight : height.fits leaf.height = true := decide_eq_true leaf.height.toNat_lt
  simp [node, Format.iso_fits, hheight]

@[simp] theorem node_length (leaf : Node crypto) : (node.encode leaf).length = 72 := by
  have hheight : (height.encode leaf.height).length = 8 := leBytes_length 8 _
  simp [node, Format.iso_encode, hheight]

theorem bytes_fits {s : List UInt8} (h : s.length = 64) :
    (byte.list 8).fits s = true ∧ ((byte.list 8).encode s).length = 72 := by
  have hall : s.all byte.fits = true :=
    List.all_eq_true.mpr (fun b _ => decide_eq_true b.toNat_lt)
  refine ⟨by simp [h, hall], ?_⟩
  rw [Format.list_length (w := 1) (fun _ _ => leBytes_length 1 _), h]

theorem sig_fits {s : crypto.Sig} (h : Short s) :
    sig.fits s = true ∧ (sig.encode s).length = 72 := bytes_fits h

theorem qc_fits {c : QC crypto} (h : c.InRange Short) :
    qc.fits c = true ∧ (qc.encode c).length = 52 + c.sigs.length * 76 := by
  have hall : c.sigs.all (u32.pair sig).fits = true := by
    refine List.all_eq_true.mpr (fun entry he => ?_)
    obtain ⟨voter, s⟩ := entry
    obtain ⟨hvoter, hsig⟩ := h.sigs _ he
    simpa [(sig_fits hsig).1] using hvoter
  have hentry : ∀ entry ∈ c.sigs, ((u32.pair sig).encode entry).length = 76 := by
    rintro ⟨voter, s⟩ he
    simp [(sig_fits (h.sigs _ he).2).2]
  constructor
  · simpa [qc, Format.iso_fits, hall] using And.intro h.view h.count
  · simp [qc, Format.iso_encode, Format.list_length hentry]
    omega

theorem justify_fits {justify : Option (QC crypto)}
    (h : ∀ c, justify = some c → c.InRange Short) :
    qc.option.fits justify = true ∧ (qc.option.encode justify).length ≤
      53 + 76 * (justify.toList.flatMap (fun c =>
        c.sigs.map (fun entry => (c.digest, entry.1, entry.2)))).length := by
  cases justify with
  | none => exact ⟨rfl, by simp [Format.option]⟩
  | some c =>
    obtain ⟨hfits, hlen⟩ := qc_fits (h c rfl)
    refine ⟨hfits, ?_⟩
    simp [Format.option, hlen]
    omega

theorem wire_fits (msg : Wire crypto) :
    wire.fits msg = (fields (split msg).1).fits (split msg).2 :=
  Bool.and_eq_right_iff_imp.mpr (fun _ => tag_fits _)

theorem wire_length (msg : Wire crypto) :
    (wire.encode msg).length = 4 + ((fields (split msg).1).encode (split msg).2).length := by
  rw [← tag_length (split msg).1, ← List.length_append]
  rfl

theorem codec_compact : codec.Compact Short 141 76 := by
  refine ⟨codec_inverts, ?_⟩
  intro msg hrange
  suffices h : wire.fits msg = true ∧
      (wire.encode msg).length ≤ 141 + 76 * msg.signatures.length from
    ⟨_, by simp [codec, h.1], h.2⟩
  rw [wire_fits, wire_length]
  cases msg with
  | hello nodeId pubkey =>
    obtain ⟨hid, hkey⟩ := hrange
    refine ⟨by simpa [split, fields, Format.raw, hkey] using hid, ?_⟩
    simp [split, fields, Format.raw, hkey]
    omega
  | proposal view leaf justify sender =>
    obtain ⟨hview, hid, hqc⟩ := hrange
    obtain ⟨hfits, hlen⟩ := justify_fits hqc
    refine ⟨by simpa [split, fields, hfits] using And.intro hview hid, ?_⟩
    simp only [split, fields, Format.pair_encode, List.length_append, u64_length, u32_length,
      node_length, Wire.signatures, Wire.certs]
    omega
  | phaseQc ty view c sender =>
    obtain ⟨hview, hid, hqc⟩ := hrange
    obtain ⟨hfits, hlen⟩ := qc_fits hqc
    refine ⟨by simpa [split, fields, hfits] using And.intro hview hid, ?_⟩
    simp [split, fields, hlen, Wire.signatures, Wire.certs]
    omega
  | vote ty view nh voter s =>
    obtain ⟨hview, hid, hsig⟩ := hrange
    obtain ⟨hfits, hlen⟩ := sig_fits hsig
    refine ⟨by simpa [split, fields, hfits] using And.intro hview hid, ?_⟩
    simp [split, fields, hlen, Wire.signatures]
  | newView view justify sender =>
    obtain ⟨hview, hid, hqc⟩ := hrange
    obtain ⟨hfits, hlen⟩ := justify_fits hqc
    refine ⟨by simpa [split, fields, hfits] using And.intro hview hid, ?_⟩
    simp only [split, fields, Format.pair_encode, List.length_append, u64_length, u32_length,
      Wire.signatures, Wire.certs]
    omega

/-- Two nodes with three empty blocks to go through. -/
def cluster : Cluster crypto where
  n := 2
  small := Pair.cluster.small
  byz := ∅
  key i := (i : Nat)
  secret i := (i : Nat)
  workload := steadyWorkload crypto 3 []
  validator _ := .reexecute 0
  timeoutBaseMs := 1000
  overflowChecks := true

/-- What node 0 sends in view 1: a proposal, three certificates and a NEW-VIEW. -/
def firstView : List (Wire crypto) :=
  [.proposal 1 first none 0,
    .phaseQc .preCommit 1 (cert .prepare) 0, .phaseQc .commit 1 (cert .preCommit) 0,
    .phaseQc .decide 1 (cert .commit) 0, .newView 1 (some (cert .prepare)) 0]

end Bytewise

/-- Node 0 has led view 1 to its decision. All it has sent crosses, in frames of 89,
224, 224, 224 and 221 bytes and their lengths. -/
theorem bytewise_crosses : ∃ s, System.Reach Bytewise.cluster Bytewise.cluster.Posted s ∧
    (s 0).replica.effects.filterMap Effect.sent = Bytewise.firstView ∧
    ∃ stream, (writerTask Bytewise.codec Bytewise.firstView).on [] = (.ok (), stream) ∧
      stream.length = (4 + 89) + 3 * (4 + 224) + (4 + 221) ∧
      ∀ out, Ends (readerRound Bytewise.codec) (stream, []) out ↔
        out = (Bytewise.firstView, .unexpectedEof) := by
  have hplay : (Bytewise.cluster.rehearse (Pair.cues.take 11) (System.start Bytewise.cluster)).any
      (fun s => decide ((s 0).replica.effects.filterMap Effect.sent = Bytewise.firstView)) =
      true := by
    decide +kernel
  obtain ⟨log, s, hcalm, hc⟩ := rehearse_exists hplay
  have hsent := of_decide_eq_true hc
  have hsigns : Bytewise.cluster.SignsValidly := by
    intro i d _
    simp [Bytewise.crypto, Bytewise.cluster]
  have hshort : ∀ pk d sig, Bytewise.crypto.verify pk d sig = true → Bytewise.Short sig := by
    intro pk d sig hv
    rw [Bytewise.Short, beq_iff_eq.mp hv, List.length_replicate]
  obtain ⟨stream, hwritten, hread⟩ := sent_messages_cross Bytewise.codec Bytewise.codec_compact
    (by decide) hshort hsigns hcalm.reach (i := 0) (by decide) Bytewise.firstView (by
      intro msg hm
      rw [← hsent] at hm
      exact List.mem_filterMap.mp hm)
  have hlen : ((writerTask Bytewise.codec Bytewise.firstView).on []).2.length =
      (4 + 89) + 3 * (4 + 224) + (4 + 221) := by
    decide +kernel
  rw [hwritten] at hlen
  exact ⟨s, hcalm.reach, hsent, stream, hwritten, hlen, hread⟩

end ZkStf
