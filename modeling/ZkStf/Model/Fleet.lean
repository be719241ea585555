import ZkStf.Model.Network

namespace ZkStf
open ZkStf.Basis
variable {C : Crypto}

/-- The message an effect brings to a node. -/
def Effect.letterTo (i : Nat) : Effect C → Option (Wire C)
  | .broadcast msg => some msg
  | .sendTo peer msg => if peer = i then some msg else none
  | _ => none

/-- Sending and waiting are tasks of their own, which run at some later time. -/
def Effect.spawns : Effect C → Bool
  | .broadcast _ => true
  | .sendTo _ _ => true
  | .armTimer _ _ => true
  | _ => false

def Effect.isSend : Effect C → Bool
  | .broadcast _ => true
  | .sendTo _ _ => true
  | _ => false

/-- The nodes of a cluster and the connections between them. Connection `c` was
dialed by the first node of its link and accepted by the second. -/
structure Mesh (C : Crypto) where
  cluster : Cluster C
  pubkey : Nat → List UInt8
  links : List (Nat × Nat)

/-- The connections that the nodes of a cluster make: each of them dials all the others. -/
def Mesh.dialed (K : Cluster C) (pubkey : Nat → List UInt8) : Mesh C where
  cluster := K
  pubkey := pubkey
  links := (List.range K.n).flatMap (fun i =>
    ((List.range K.n).filter (fun j => j ≠ i)).map (fun j => (i, j)))

/-- The node at the other end of a connection. -/
def Mesh.peer (M : Mesh C) (c i : Nat) : Option Nat :=
  M.links[c]?.bind (fun link =>
    if link.1 = i then some link.2 else if link.2 = i then some link.1 else none)

/-- The nodes at work: the tasks each has spawned that have not run yet, what each
has written on a connection that is not read yet, and the events each has taken. -/
structure Fleet (C : Crypto) where
  hosts : Nat → Host C
  spawned : Nat → List (Effect C)
  wires : Nat → Nat → List (Wire C)
  taken : Nat → List (Event C)

def Host.effects (h : Host C) : List (Effect C) := (h.task.map (·.replica.effects)).getD []

def Host.valReqs (h : Host C) : List (ValidateRequest C × State) :=
  (h.task.map (·.replica.valReqs)).getD []

inductive FleetAct
  | greet (i c : Nat)
  | publish (i c : Nat)
  | readClosed (i c : Nat)
  | begin (i : Nat)
  | rule (i : Nat) (ord : Order)
  | receive (i : Nat)
  | validated (i : Nat)
  | fire (i k : Nat)
  | send (i k : Nat)
  | arrive (i c : Nat)

namespace Fleet

def boot (M : Mesh C) : Fleet C where
  hosts i := .boot i (M.cluster.key i)
  spawned _ := []
  wires _ _ := []
  taken _ := []

/-- A node has made an act, and taken some events in it. -/
def settle (F : Fleet C) (i : Nat) (h : Host C) (evs : List (Event C)) : Fleet C :=
  { F with
    hosts := Function.update F.hosts i h
    spawned := Function.update F.spawned i
      (F.spawned i ++ (h.effects.drop (F.hosts i).effects.length).filter Effect.spawns)
    taken := Function.update F.taken i (F.taken i ++ evs) }

def move (M : Mesh C) (F : Fleet C) (i : Nat) (a : Act C) (evs : List (Event C)) :
    Option (Fleet C) :=
  if i < M.cluster.n then
    ((F.hosts i).act (M.cluster.wiring i) M.cluster.n a).map (fun h => F.settle i h evs)
  else none

/-- A spawned task has run. -/
def finish (F : Fleet C) (i k : Nat) : Fleet C :=
  { F with spawned := Function.update F.spawned i ((F.spawned i).eraseIdx k) }

/-- Put a message on the connections of all the peers it is for. -/
def post (F : Fleet C) (i : Nat) (e : Effect C) : Fleet C :=
  { F with
    wires := Function.update F.wires i (fun c => F.wires i c ++
      (F.hosts i).peerWriters.entries.filterMap (fun writer =>
        if writer.2 = c then e.letterTo writer.1 else none)) }

def act (M : Mesh C) (F : Fleet C) : FleetAct → Option (Fleet C)
  | .greet i c => (M.peer c i).bind (fun j => F.move M i (.greet c (.hello j (M.pubkey j))) [])
  | .publish i c => F.move M i (.publish c) []
  | .readClosed i c => F.move M i (.readClosed c) []
  | .begin i => F.move M i .begin []
  | .rule i ord => F.move M i (.rule ord) []
  | .receive i =>
    match (F.hosts i).inbox with
    | [] => none
    | (_, msg) :: _ => F.move M i .receive [.message msg]
  | .validated i =>
    if (F.hosts i).valReqs = [] then none else F.move M i (.validated 0) [.validated 0]
  | .fire i k =>
    match (F.spawned i)[k]? with
    | some (.armTimer view _) => (F.finish i k).move M i (.timer view) [.timer view]
    | _ => none
  | .send i k =>
    match (F.spawned i)[k]? with
    | some e => if e.isSend then some ((F.finish i k).post i e) else none
    | none => none
  | .arrive i c =>
    (M.peer c i).bind (fun j =>
      match F.wires j c with
      | [] => none
      | msg :: rest =>
        { F with wires := Function.update F.wires j (Function.update (F.wires j) c rest) }.move
          M i (.frame c msg) [])

/-- The view of some node passes `u64::MAX`. -/
def PassesMax (F F' : Fleet C) : Prop :=
  ∃ i m m', (F.hosts i).task = some m ∧ (F'.hosts i).task = some m' ∧
    Wraps m.replica m'.replica

/-- The runs of a fleet in which no view passes `u64::MAX`. Connections may end at
any time. -/
inductive Reach (M : Mesh C) : Fleet C → Prop
  | boot : Reach M (.boot M)
  | act {F F' : Fleet C} (a : FleetAct) : Reach M F → F.act M a = some F' → ¬ F.PassesMax F' →
      Reach M F'

/-- An act of a quiet network: the end of no stream is handled, and no timer goes off
before the node has left its view. -/
def Quiet (F : Fleet C) : FleetAct → Prop
  | .readClosed _ _ => False
  | .fire i k => ∀ view ms m, (F.spawned i)[k]? = some (.armTimer view ms) →
      (F.hosts i).task = some m → view < m.replica.rs.view
  | _ => True

/-- The first duplicate check that a node makes for a peer is for the connection that
the peer made its own first check for, if the peer has made one. -/
def Concurs (F : Fleet C) : FleetAct → Prop
  | .publish i c => ∀ p d, (F.hosts i).conns c = .keyed p →
      (F.hosts i).peerWriters.get? p = none → (F.hosts p).peerWriters.get? i = some d → d = c
  | _ => True

/-- The runs of a fleet in a quiet network, with the number of their acts. Any two
nodes make their first duplicate checks for each other on the same connection. -/
inductive QuietRun (M : Mesh C) : Nat → Fleet C → Prop
  | boot : QuietRun M 0 (.boot M)
  | act {t : Nat} {F F' : Fleet C} (a : FleetAct) : QuietRun M t F → F.Quiet a → F.Concurs a →
      F.act M a = some F' → QuietRun M (t + 1) F'

end Fleet
end ZkStf
