import ZkStf.Basis.Format
import ZkStf.Model.Framing

namespace ZkStf
open ZkStf.Basis

/-! Digests of 32 bytes and signatures of 64, and messages laid out over them the way
a derived serialization does it: a number of four bytes for the variant, numbers with
the least significant byte first, a byte before an option and the count before a list. -/
namespace Bytewise

def crypto : Crypto where
  Hash := { l : List UInt8 // l.length = 32 }
  Key := Nat
  Secret := Nat
  Sig := List UInt8
  VKey := Unit
  Proof := Unit
  zero := ⟨List.replicate 32 0, by simp⟩
  bytes h := h.1
  sha256 l := ⟨(l.reverse ++ List.replicate 32 1).take 32, by simp⟩
  hexDecode _ := some ⟨List.replicate 32 5, by simp⟩
  keyOfBytes _ := none
  sign sk _ := List.replicate 64 (UInt8.ofNat sk)
  verify pk _ sig := sig == List.replicate 64 (UInt8.ofNat pk)
  verifyProof _ _ := false
  publicValues _ := ⟨⟨List.replicate 32 0, by simp⟩, ⟨List.replicate 32 0, by simp⟩,
    ⟨List.replicate 32 0, by simp⟩⟩

instance : DecidableEq crypto.Sig := inferInstanceAs (DecidableEq (List UInt8))

def u32 : Format Nat := .nat 4

def u64 : Format Nat := .nat 8

def byte : Format UInt8 :=
  (Format.fin (2 ^ 8) 1).iso ⟨UInt8.ofFin, UInt8.toFin, fun _ => rfl, fun _ => rfl⟩

def height : Format UInt64 :=
  (Format.fin (2 ^ 64) 8).iso ⟨UInt64.ofFin, UInt64.toFin, fun _ => rfl, fun _ => rfl⟩

def msgType : Format MsgType :=
  .enum 4 [.newView, .prepare, .preCommit, .commit, .decide] (by decide)
    (fun ty => by cases ty <;> decide)

def hash : Format crypto.Hash := (Format.raw 32).sized 32

def sig : Format crypto.Sig := byte.list 8

def node : Format (Node crypto) :=
  (hash.pair (hash.pair height)).iso
    ⟨fun p => ⟨p.1, p.2.1, p.2.2⟩, fun node => (node.parent, node.cmd, node.height),
      fun _ => rfl, fun _ => rfl⟩

def qc : Format (QC crypto) :=
  (msgType.pair (u64.pair (hash.pair ((u32.pair sig).list 8)))).iso
    ⟨fun p => ⟨p.1, p.2.1, p.2.2.1, p.2.2.2⟩, fun qc => (qc.msgType, qc.view, qc.nodeHash, qc.sigs),
      fun _ => rfl, fun _ => rfl⟩

/-- The variants of `Wire`, and the fields of each. -/
inductive WireTag
  | hello
  | proposal
  | phaseQc
  | vote
  | newView
deriving DecidableEq

def tag : Format WireTag :=
  .enum 4 [.hello, .proposal, .phaseQc, .vote, .newView] (by decide)
    (fun tag => by cases tag <;> decide)

abbrev Fields : WireTag → Type
  | .hello => Nat × List UInt8
  | .proposal => Nat × Node crypto × Option (QC crypto) × Nat
  | .phaseQc => MsgType × Nat × QC crypto × Nat
  | .vote => MsgType × Nat × crypto.Hash × Nat × crypto.Sig
  | .newView => Nat × Option (QC crypto) × Nat

def split : Wire crypto → Σ tag, Fields tag
  | .hello nodeId pubkey => ⟨.hello, nodeId, pubkey⟩
  | .proposal view node justify sender => ⟨.proposal, view, node, justify, sender⟩
  | .phaseQc ty view justify sender => ⟨.phaseQc, ty, view, justify, sender⟩
  | .vote ty view nh voter sig => ⟨.vote, ty, view, nh, voter, sig⟩
  | .newView view justify sender => ⟨.newView, view, justify, sender⟩

def join : (Σ tag, Fields tag) → Wire crypto
  | ⟨.hello, nodeId, pubkey⟩ => .hello nodeId pubkey
  | ⟨.proposal, view, node, justify, sender⟩ => .proposal view node justify sender
  | ⟨.phaseQc, ty, view, justify, sender⟩ => .phaseQc ty view justify sender
  | ⟨.vote, ty, view, nh, voter, sig⟩ => .vote ty view nh voter sig
  | ⟨.newView, view, justify, sender⟩ => .newView view justify sender

def fields : ∀ tag, Format (Fields tag)
  | .hello => u32.pair (.raw 32)
  | .proposal => u64.pair (node.pair (qc.option.pair u32))
  | .phaseQc => msgType.pair (u64.pair (qc.pair u32))
  | .vote => msgType.pair (u64.pair (hash.pair (u32.pair sig)))
  | .newView => u64.pair (qc.option.pair u32)

def wire : Format (Wire crypto) :=
  (tag.sigma fields).iso
    ⟨join, split, fun ⟨tag, _⟩ => by cases tag <;> rfl, fun msg => by cases msg <;> rfl⟩

/-- Bytes that are left over do not keep a frame from being read. -/
def codec : Codec crypto where
  serialize msg := if wire.fits msg then some (wire.encode msg) else none
  deserialize bytes := (wire.decode bytes).map Prod.fst

end Bytewise
end ZkStf
