import ZkStf.Basis.Stream
import ZkStf.Model.Messages

namespace ZkStf
open ZkStf.Basis
variable {C : Crypto}

/-- The serialization of messages, which another crate does. -/
structure Codec (C : Crypto) where
  serialize : Wire C → Option (List UInt8)
  deserialize : List UInt8 → Option (Wire C)

/-- The kinds of `std::io::Error` that framing meets. -/
inductive ErrorKind
  | unexpectedEof
  | invalidData
deriving DecidableEq, Repr

/-- One direction of a connection: a write adds bytes at the end, a read takes
bytes from the front, also when it fails. Nothing follows the bytes there are. -/
abbrev Pipe (α : Type) := ExceptT ErrorKind (StateM (List UInt8)) α

def Pipe.on (x : Pipe α) (stream : List UInt8) : Except ErrorKind α × List UInt8 :=
  x.run.run stream

def writeAll (bytes : List UInt8) : Pipe Unit := modify (· ++ bytes)

def readExact (n : Nat) : Pipe (List UInt8) := do
  let stream ← get
  set (stream.drop n)
  if n ≤ stream.length then return stream.take n else throw .unexpectedEof

def writeFrame (bytes : List UInt8) : Pipe Unit := do
  let len := UInt32.ofNat bytes.length
  writeAll (be32 len)
  writeAll bytes

def readFrame : Pipe (List UInt8) := do
  let lenBuf ← readExact 4
  let len := beNat lenBuf
  readExact len

def sendMsg (codec : Codec C) (msg : Wire C) : Pipe Unit :=
  match codec.serialize msg with
  | some bytes => writeFrame bytes
  | none => throw .invalidData

def recvMsg (codec : Codec C) : Pipe (Wire C) := do
  let bytes ← readFrame
  match codec.deserialize bytes with
  | some msg => return msg
  | none => throw .invalidData

/-- The writer task of a connection, for the messages it is given. -/
def writerTask (codec : Codec C) : List (Wire C) → Pipe Unit
  | [] => return ()
  | msg :: msgs => do
    sendMsg codec msg
    writerTask codec msgs

/-- One round of the reader task, which stops at the first error. The state is
what is left of the stream and what has been handed to the inbox. -/
def readerRound (codec : Codec C) :
    List UInt8 × List (Wire C) → (List (Wire C) × ErrorKind) ⊕ (List UInt8 × List (Wire C)) :=
  readRound (recvMsg codec).on

end ZkStf
