import ZkStf.Proofs.Layout

namespace ZkStf
open ZkStf.Basis

section
variable {x : Pipe α} {f : α → Pipe β} {s s' : List UInt8} {a : α} {e : ErrorKind}

theorem Pipe.on_bind_ok (h : x.on s = (.ok a, s')) : Pipe.on (x >>= f) s = (f a).on s' := by
  unfold Pipe.on at h ⊢
  rw [ExceptT.run_bind, StateT.run_bind, h]
  rfl

theorem Pipe.on_bind_error (h : x.on s = (.error e, s')) :
    Pipe.on (x >>= f) s = (.error e, s') := by
  unfold Pipe.on at h ⊢
  rw [ExceptT.run_bind, StateT.run_bind, h]
  rfl

end

theorem readExact_on (n : Nat) (s : List UInt8) : (readExact n).on s =
    (if n ≤ s.length then .ok (s.take n) else .error .unexpectedEof, s.drop n) := by
  change Pipe.on (if n ≤ s.length then pure (s.take n) else throw .unexpectedEof) (s.drop n) = _
  split
  · rfl
  · rfl

theorem readExact_append {n : Nat} {front : List UInt8} (h : front.length = n)
    (rest : List UInt8) : (readExact n).on (front ++ rest) = (.ok front, rest) := by
  subst h
  simp [readExact_on]

theorem readExact_short {n : Nat} {s : List UInt8} (h : s.length < n) :
    (readExact n).on s = (.error .unexpectedEof, []) := by
  simp [readExact_on, h, h.le]

/-- The bytes of a frame. -/
def frame (bytes : List UInt8) : List UInt8 := be32 (UInt32.ofNat bytes.length) ++ bytes

theorem frame_length (bytes : List UInt8) : (frame bytes).length = 4 + bytes.length := by
  simp [frame]

theorem writeFrame_on (bytes s : List UInt8) :
    (writeFrame bytes).on s = (.ok (), s ++ frame bytes) := by
  rw [frame, ← List.append_assoc]
  rfl

section
variable {bytes : List UInt8} (hlen : bytes.length < 2 ^ 32)
include hlen

/-- The prefix counts the bytes that follow it. -/
theorem readFrame_header {tail : List UInt8} :
    readFrame.on (be32 (UInt32.ofNat bytes.length) ++ tail) = (readExact bytes.length).on tail := by
  have hcount : beNat (be32 (UInt32.ofNat bytes.length)) = bytes.length := by
    simpa using Nat.mod_eq_of_lt hlen
  unfold readFrame
  rw [Pipe.on_bind_ok (readExact_append (be32_length _) tail), hcount]

theorem readFrame_whole (rest : List UInt8) :
    readFrame.on (frame bytes ++ rest) = (.ok bytes, rest) := by
  rw [frame, List.append_assoc, readFrame_header hlen]
  exact readExact_append rfl rest

theorem readFrame_cut {n : Nat} (hn : n < (frame bytes).length) :
    readFrame.on ((frame bytes).take n) = (.error .unexpectedEof, []) := by
  rw [frame_length] at hn
  rcases Nat.lt_or_ge n 4 with hshort | hheader
  · apply Pipe.on_bind_error
    apply readExact_short
    rw [List.length_take]
    omega
  · have htake : (frame bytes).take n =
        be32 (UInt32.ofNat bytes.length) ++ bytes.take (n - 4) := by
      rw [frame, List.take_append, be32_length, List.take_of_length_le]
      simpa using hheader
    rw [htake, readFrame_header hlen]
    apply readExact_short
    rw [List.length_take]
    omega

end

section
variable {C : Crypto} {codec : Codec C} {msg : Wire C} {msgs : List (Wire C)}

/-- What is assumed of the serialization. -/
def Codec.Inverts (codec : Codec C) : Prop :=
  ∀ msg bytes, codec.serialize msg = some bytes → codec.deserialize bytes = some msg

/-- A message whose length fits in the prefix of a frame. -/
def Codec.Fits (codec : Codec C) (msg : Wire C) : Prop :=
  ∃ bytes, codec.serialize msg = some bytes ∧ bytes.length < 2 ^ 32

def Codec.frame (codec : Codec C) (msg : Wire C) : List UInt8 :=
  ZkStf.frame ((codec.serialize msg).getD [])

theorem writerTask_on (hfit : ∀ msg ∈ msgs, codec.Fits msg) (s : List UInt8) :
    (writerTask codec msgs).on s = (.ok (), s ++ msgs.flatMap codec.frame) := by
  induction msgs generalizing s with
  | nil =>
    rw [List.flatMap_nil, List.append_nil]
    rfl
  | cons msg msgs ih =>
    obtain ⟨bytes, hser, _⟩ := hfit msg (by simp)
    have hsend : (sendMsg codec msg).on s = (.ok (), s ++ codec.frame msg) := by
      simp only [sendMsg, Codec.frame, hser, Option.getD_some]
      exact writeFrame_on bytes s
    unfold writerTask
    rw [Pipe.on_bind_ok hsend, ih (fun m hm => hfit m (by simp [hm])), List.flatMap_cons,
      List.append_assoc]

theorem recvMsg_delimited (hinverts : codec.Inverts) (hfit : codec.Fits msg) :
    Delimited codec.frame (recvMsg codec).on .unexpectedEof msg := by
  obtain ⟨bytes, hser, hlen⟩ := hfit
  have hframe : codec.frame msg = ZkStf.frame bytes := by
    simp [Codec.frame, hser]
  constructor
  · intro rest
    unfold recvMsg
    rw [hframe, Pipe.on_bind_ok (readFrame_whole hlen rest), hinverts msg bytes hser]
    rfl
  · intro n hn
    rw [hframe] at hn ⊢
    unfold recvMsg
    rw [Pipe.on_bind_error (readFrame_cut hlen hn)]

theorem recvMsg_nil : ((recvMsg codec).on []).1 = .error .unexpectedEof := rfl

/-- A reader of the whole stream gets all the messages. -/
theorem readerRound_whole (hinverts : codec.Inverts) (hfit : ∀ msg ∈ msgs, codec.Fits msg) :
    Ends (readerRound codec) (msgs.flatMap codec.frame, []) (msgs, .unexpectedEof) := by
  have hends := readRound_ends recvMsg_nil
    (fun msg hm => recvMsg_delimited hinverts (hfit msg hm))
    (msgs.flatMap codec.frame).length []
  have hall : msgs.length ≤ wholeWords codec.frame (msgs.flatMap codec.frame).length msgs := by
    apply le_wholeWords le_rfl
    rw [List.take_length]
  rw [List.take_length, List.take_of_length_le hall] at hends
  exact hends

/-- What goes through a connection. The reader gets the messages whose frames are
complete, in order, and then the end of the stream, wherever that is. -/
theorem framing_faithful (codec : Codec C) (hinverts : codec.Inverts) (msgs : List (Wire C))
    (hfit : ∀ msg ∈ msgs, codec.Fits msg) :
    ∃ stream, (writerTask codec msgs).on [] = (.ok (), stream) ∧
      (∀ out, Ends (readerRound codec) (stream, []) out ↔ out = (msgs, .unexpectedEof)) ∧
      ∀ cut, ∃ k ≤ msgs.length,
        ((writerTask codec (msgs.take k)).on []).2.length ≤ cut ∧
        (∀ j ≤ msgs.length, ((writerTask codec (msgs.take j)).on []).2.length ≤ cut → j ≤ k) ∧
        ∀ out, Ends (readerRound codec) (stream.take cut, []) out ↔
          out = (msgs.take k, .unexpectedEof) := by
  have hwords : ∀ msg ∈ msgs, Delimited codec.frame (recvMsg codec).on .unexpectedEof msg :=
    fun msg hm => recvMsg_delimited hinverts (hfit msg hm)
  have hsent (j : Nat) : ((writerTask codec (msgs.take j)).on []).2 =
      (msgs.take j).flatMap codec.frame := by
    rw [writerTask_on (fun m hm => hfit m (List.mem_of_mem_take hm))]
    rfl
  refine ⟨msgs.flatMap codec.frame, writerTask_on hfit [], ?_, ?_⟩
  · exact fun out => (readerRound_whole hinverts hfit).iff
  · intro cut
    refine ⟨wholeWords codec.frame cut msgs, wholeWords_le, ?_, ?_, ?_⟩
    · rw [hsent]
      exact wholeWords_within msgs cut
    · intro j hj hcut
      rw [hsent] at hcut
      exact le_wholeWords hj hcut
    · intro out
      exact (readRound_ends recvMsg_nil hwords cut []).iff

end

namespace Bytewise

theorem codec_inverts : codec.Inverts := by
  intro msg bytes h
  simp only [codec] at h
  split at h
  · rename_i hfits
    cases h
    have hdecode := wire.decode_encode hfits []
    rw [List.append_nil] at hdecode
    simp [codec, hdecode]
  · cases h

theorem first_cmd : (List.replicate 32 (5 : UInt8)).length = 32 := List.length_replicate

/-- The first block, as the leader of view 1 proposes it. -/
def first : Node crypto := ⟨genesisHash crypto, ⟨List.replicate 32 5, first_cmd⟩, 0⟩

/-- The certificates that two nodes make for the first block. -/
def cert (ty : MsgType) : QC crypto :=
  ⟨ty, 1, nodeHash first, [(0, List.replicate 64 0), (1, List.replicate 64 1)]⟩

/-- What node 1 has to say first to a peer it has just met, and on its way to view 2. -/
def greetings : List (Wire crypto) :=
  [.hello 1 (List.replicate 32 9), .newView 1 (some (cert .prepare)) 1]

theorem greetings_fit : ∀ msg ∈ greetings, codec.Fits msg := by
  have hsome : ∀ msg ∈ greetings, (codec.serialize msg).any (·.length < 2 ^ 32) = true := by
    decide +kernel
  intro msg hmem
  obtain ⟨bytes, hser, hlen⟩ := Option.any_eq_true _ _ |>.mp (hsome msg hmem)
  exact ⟨bytes, hser, of_decide_eq_true hlen⟩

end Bytewise

/-- The connection ends within the certificate of the second message. -/
theorem greetings_cut : ∃ stream, (writerTask Bytewise.codec Bytewise.greetings).on [] =
      (.ok (), stream) ∧
    Ends (readerRound Bytewise.codec) (stream, []) (Bytewise.greetings, .unexpectedEof) ∧
    Ends (readerRound Bytewise.codec) (stream.take 150, [])
      ([.hello 1 (List.replicate 32 9)], .unexpectedEof) := by
  obtain ⟨stream, hsent, hwhole, hcut⟩ := framing_faithful Bytewise.codec
    Bytewise.codec_inverts Bytewise.greetings Bytewise.greetings_fit
  refine ⟨stream, hsent, (hwhole _).mpr rfl, ?_⟩
  obtain ⟨k, hk, hwithin, hmost, hends⟩ := hcut 150
  have hone : 1 ≤ k := hmost 1 (by decide) (by decide +kernel)
  have htwo : k ≠ 2 := by
    rintro rfl
    exact absurd hwithin (by decide +kernel)
  have hk : k ≤ 2 := hk
  obtain rfl : k = 1 := by omega
  exact (hends _).mpr rfl

end ZkStf
