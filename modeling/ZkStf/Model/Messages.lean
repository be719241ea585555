import ZkStf.Basis.Ballots
import ZkStf.Basis.Bytes
import ZkStf.Basis.EntryMap

namespace ZkStf
open ZkStf.Basis
open ZkStf.Basis.Ballots (Phase)

inductive MsgType
  | newView
  | prepare
  | preCommit
  | commit
  | decide
deriving DecidableEq, Repr

/-- The type a vote of the phase, and the certificate made of such votes, carries. -/
def msgTypeOf : Phase → MsgType
  | .prepare => .prepare
  | .preCommit => .preCommit
  | .commit => .commit

/-- What a voter signs. Its serialization keeps the three fields apart, so the
signed bytes are not spelled out. -/
structure VoteDigest (Hash : Type) where
  msgType : MsgType
  view : Nat
  nodeHash : Hash
deriving DecidableEq

/-- The public values of a block proof. -/
structure BlockCommit (Hash : Type) where
  preStateRoot : Hash
  postStateRoot : Hash
  txHash : Hash
deriving DecidableEq

/-- What the node takes from other crates: digests and their bytes, hex text,
ed25519 and the proof system. Digests are opaque so that a hash may be assumed
injective; `zero` is the digest of 32 zero bytes. -/
structure Crypto where
  Hash : Type
  Key : Type
  Secret : Type
  Sig : Type
  VKey : Type
  Proof : Type
  [decHash : DecidableEq Hash]
  zero : Hash
  bytes : Hash → List UInt8
  sha256 : List UInt8 → Hash
  hexDecode : String → Option Hash
  keyOfBytes : List UInt8 → Option Key
  sign : Secret → VoteDigest Hash → Sig
  verify : Key → VoteDigest Hash → Sig → Bool
  verifyProof : VKey → Proof → Bool
  publicValues : Proof → BlockCommit Hash

attribute [instance] Crypto.decHash

structure Node (C : Crypto) where
  parent : C.Hash
  cmd : C.Hash
  height : UInt64
deriving DecidableEq

/-- Sentinel parent of the first node. -/
def genesisHash (C : Crypto) : C.Hash := C.zero

def nodeHash {C : Crypto} (n : Node C) : C.Hash :=
  C.sha256 (C.bytes n.parent ++ C.bytes n.cmd ++ le64 n.height)

structure QC (C : Crypto) where
  msgType : MsgType
  view : Nat
  nodeHash : C.Hash
  sigs : List (Nat × C.Sig)

def voteDigest {C : Crypto} (ty : MsgType) (view : Nat) (nh : C.Hash) : VoteDigest C.Hash :=
  ⟨ty, view, nh⟩

def signVote {C : Crypto} (sk : C.Secret) (ty : MsgType) (view : Nat) (nh : C.Hash) : C.Sig :=
  C.sign sk (voteDigest ty view nh)

def verifyVoteSig {C : Crypto} (pk : C.Key) (ty : MsgType) (view : Nat) (nh : C.Hash)
    (sig : C.Sig) : Bool :=
  C.verify pk (voteDigest ty view nh) sig

inductive Wire (C : Crypto)
  | hello (nodeId : Nat) (pubkey : List UInt8)
  | proposal (view : Nat) (node : Node C) (justify : Option (QC C)) (sender : Nat)
  | phaseQc (msgType : MsgType) (view : Nat) (justify : QC C) (sender : Nat)
  | vote (msgType : MsgType) (view : Nat) (nodeHash : C.Hash) (voter : Nat) (partialSig : C.Sig)
  | newView (view : Nat) (justify : Option (QC C)) (sender : Nat)

/-- The parent a proposal must name: the node of the attached certificate, or
genesis when none is attached. -/
def expectedParent {C : Crypto} (justify : Option (QC C)) : C.Hash :=
  (justify.map QC.nodeHash).getD (genesisHash C)

end ZkStf
