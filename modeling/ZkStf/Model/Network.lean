import ZkStf.Basis.Trace
import ZkStf.Model.Machine

namespace ZkStf
open ZkStf.Basis
variable {C : Crypto}

/-- Where the task of a connection stands. It awaits a lock between writing the
peer's key and publishing the peer's writer, so others may run in between. -/
inductive Conn
  | handshaking
  | keyed (peer : Nat)
  | live (peer : Nat)
  | closed
deriving DecidableEq, Repr

def Conn.isLive : Conn → Bool
  | .live _ => true
  | _ => false

/-- A node with its tables. `peerWriters` tells which connection a peer's writer
feeds. The inbox keeps the connection of each message, which nothing reads;
`task` is the consensus task, once it runs. -/
structure Host (C : Crypto) where
  peerKeys : EntryMap Nat C.Key
  peerWriters : EntryMap Nat Nat
  conns : Nat → Conn
  inbox : List (Nat × Wire C)
  task : Option (Machine C)

/-- The peer's side of the handshake: its first message must be a Hello. -/
def handshake : Wire C → Option (Nat × List UInt8)
  | .hello nodeId pubkey => some (nodeId, pubkey)
  | _ => none

namespace Host

def withConn (h : Host C) (c : Nat) (state : Conn) : Host C :=
  { h with conns := Function.update h.conns c state }

/-- The first part of `install_connection`, up to the insertion of the key. -/
def greet (h : Host C) (c : Nat) (reply : Wire C) : Host C :=
  match handshake reply with
  | none => h.withConn c .closed
  | some (peerId, pkBytes) =>
    match C.keyOfBytes pkBytes with
    | none => h.withConn c .closed
    | some peerVk =>
      { h with peerKeys := h.peerKeys.insert peerId peerVk }.withConn c (.keyed peerId)

/-- The second part: a second connection of a peer is dropped. -/
def publish (h : Host C) (c peerId : Nat) : Host C :=
  if (h.peerWriters.get? peerId).isSome then h.withConn c .closed
  else { h with peerWriters := h.peerWriters.insert peerId c }.withConn c (.live peerId)

/-- The reader task hands a message to the inbox. -/
def forward (h : Host C) (c : Nat) (msg : Wire C) : Host C :=
  { h with inbox := h.inbox ++ [(c, msg)] }

/-- The reader task ends, and takes the peer's writer out of the table. -/
def readClosed (h : Host C) (c peerId : Nat) : Host C :=
  { h with peerWriters := h.peerWriters.erase peerId }.withConn c .closed

/-- A node before any connection. Its own key is in the table. -/
def boot (myId : Nat) (ownKey : C.Key) : Host C where
  peerKeys := EntryMap.empty.insert myId ownKey
  peerWriters := .empty
  conns _ := .handshaking
  inbox := []
  task := none

end Host

/-- What may happen next at a node. -/
inductive Act (C : Crypto)
  | greet (c : Nat) (reply : Wire C)
  | publish (c : Nat)
  | frame (c : Nat) (msg : Wire C)
  | readClosed (c : Nat)
  | begin
  | receive
  | timer (view : Nat)
  | validated (k : Nat)
  | rule (ord : Order)

/-- One event of the consensus loop. -/
def Machine.consume (keys : Nat → Option C.Key) (w : Wiring C) (m : Machine C) (ev : Event C) :
    Option (Machine C) :=
  if m.todo = [] ∧ ¬ finished w m.replica then
    (handleEvent keys w m.replica ev).toOption.map (⟨·, passOrder⟩)
  else none

def Machine.advance (w : Wiring C) (ord : Order) (m : Machine C) : Option (Machine C) :=
  match m.todo with
  | [] => none
  | rule :: rest => (rule.run w ord m.replica).toOption.map (⟨·, rest⟩)

/-- `none` when the act is not possible as the node stands. -/
def Host.act (w : Wiring C) (n : Nat) (h : Host C) : Act C → Option (Host C)
  | .greet c reply => if h.conns c = .handshaking then some (h.greet c reply) else none
  | .publish c =>
    match h.conns c with
    | .keyed peerId => some (h.publish c peerId)
    | _ => none
  | .frame c msg =>
    match h.conns c with
    | .live _ => some (h.forward c msg)
    | _ => none
  | .readClosed c =>
    match h.conns c with
    | .handshaking => some (h.withConn c .closed)
    | .live peerId => some (h.readClosed c peerId)
    | _ => none
  | .begin =>
    if h.task.isNone ∧ n - 1 ≤ h.peerWriters.size then
      some { h with task := some (.start w n) }
    else none
  | .receive =>
    match h.inbox with
    | [] => none
    | (_, msg) :: rest =>
      (h.task.bind (·.consume h.peerKeys.get? w (.message msg))).map
        (fun m => { h with inbox := rest, task := some m })
  | .timer view =>
    (h.task.bind (·.consume h.peerKeys.get? w (.timer view))).map
      (fun m => { h with task := some m })
  | .validated k =>
    (h.task.bind (·.consume h.peerKeys.get? w (.validated k))).map
      (fun m => { h with task := some m })
  | .rule ord => (h.task.bind (·.advance w ord)).map (fun m => { h with task := some m })

/-- A run of a node: the acts it made, oldest first. -/
def Host.run (w : Wiring C) (n : Nat) (h : Host C) (acts : List (Act C)) : Option (Host C) :=
  follow (Host.act w n) h acts

/-- Two nodes, `false` and `true`, that dial each other: connection `c` is the
one that node `c` dialed. Each key decodes, so the handshakes succeed. -/
structure Dialers (C : Crypto) where
  wiring : Bool → Wiring C
  n : Nat
  pubkey : Bool → List UInt8
  decodes : ∀ x, (C.keyOfBytes (pubkey x)).isSome

/-- The steps of the four `install_connection` tasks, and the end of a stream
reaching the reader task at node `x`. -/
inductive Dial
  | greet (x c : Bool)
  | publish (x c : Bool)
  | endOfStream (x c : Bool)
deriving DecidableEq, Repr

namespace Dialers

def peerOf (D : Dialers C) (x : Bool) : Nat := (D.wiring (!x)).myId

/-- A stream ends at one side once the other side has dropped it. -/
def act (D : Dialers C) (hosts : Bool → Host C) : Dial → Option (Bool → Host C)
  | .greet x c =>
    ((hosts x).act (D.wiring x) D.n (.greet c.toNat (.hello (D.peerOf x) (D.pubkey (!x))))).map
      (Function.update hosts x)
  | .publish x c =>
    ((hosts x).act (D.wiring x) D.n (.publish c.toNat)).map (Function.update hosts x)
  | .endOfStream x c =>
    match (hosts x).conns c.toNat, (hosts (!x)).conns c.toNat with
    | .live _, .closed =>
      ((hosts x).act (D.wiring x) D.n (.readClosed c.toNat)).map (Function.update hosts x)
    | _, _ => none

def run (D : Dialers C) (hosts : Bool → Host C) (acts : List Dial) : Option (Bool → Host C) :=
  follow D.act hosts acts

end Dialers

end ZkStf
