import ZkStf.Model.Network
import ZkStf.Proofs.Runs

namespace ZkStf
open ZkStf.Basis
open Relation (ReflTransGen)

/-- A cryptography that can be run and that no two inputs collide in. The
preimages of `table` have short digests, every other digest is its preimage;
signatures name their key and what they sign. -/
def tabled (pad : Nat) (table : List (List UInt8)) (hex : String → Option (Nat ⊕ List UInt8)) :
    Crypto where
  Hash := Nat ⊕ List UInt8
  Key := Nat
  Secret := Nat
  Sig := Nat × VoteDigest (Nat ⊕ List UInt8)
  VKey := Unit
  Proof := Bool × BlockCommit (Nat ⊕ List UInt8)
  zero := .inl 0
  bytes h := List.replicate pad 3 ++ codeWord h
  sha256 l := if l ∈ table then .inl (table.idxOf l + 1) else .inr l
  hexDecode := hex
  keyOfBytes l := l.head?.map UInt8.toNat
  sign sk d := (sk, d)
  verify pk d sig := decide (sig = (pk, d))
  verifyProof _ proof := proof.1
  publicValues proof := proof.2

section
variable {pad : Nat} {table : List (List UInt8)} {hex : String → Option (Nat ⊕ List UInt8)}

theorem tabled_injective : Function.Injective (tabled pad table hex).sha256 := by
  intro a b h
  simp only [tabled] at h
  split at h <;> split at h
  · rename_i ha hb
    have hi : table.idxOf a = table.idxOf b := by simpa using h
    exact (List.idxOf_inj ha).mp hi
  · cases h
  · cases h
  · cases h
    rfl

theorem tabled_splits : Splits (tabled pad table hex).bytes :=
  codeWord_splits.padded _

theorem tabled_verifies (key : Nat) (d : VoteDigest (Nat ⊕ List UInt8)) :
    (tabled pad table hex).verify key d ((tabled pad table hex).sign key d) = true := by
  simp [tabled]

instance : DecidableEq (tabled pad table hex).Key := inferInstanceAs (DecidableEq Nat)

instance : DecidableEq (tabled pad table hex).Sig :=
  inferInstanceAs (DecidableEq (Nat × VoteDigest (Nat ⊕ List UInt8)))

theorem tabled_fresh (l : List UInt8) : (tabled pad table hex).sha256 l ≠ .inl 0 := by
  intro h
  simp only [tabled] at h
  split at h <;> cases h

end

variable {C : Crypto}

/-- Digests that keep apart whatever differs keep nodes apart. -/
theorem nodeHash_injective (hs : Function.Injective C.sha256) (hb : Splits C.bytes) :
    Function.Injective (nodeHash (C := C)) := by
  intro a b h
  have hbytes := hs h
  simp only [List.append_assoc] at hbytes
  obtain ⟨hp, hrest⟩ := hb _ _ _ _ hbytes
  obtain ⟨hc, hheight⟩ := hb _ _ _ _ hrest
  cases a
  cases b
  simp only [Node.mk.injEq]
  exact ⟨hp, hc, le64_inj hheight⟩

section
variable {pad : Nat} {table : List (List UInt8)} {hex : String → Option (Nat ⊕ List UInt8)}

theorem tabled_nodes_apart : Function.Injective (nodeHash (C := tabled pad table hex)) :=
  nodeHash_injective tabled_injective tabled_splits

theorem tabled_nodes_fresh (node : Node (tabled pad table hex)) :
    nodeHash node ≠ genesisHash (tabled pad table hex) :=
  tabled_fresh _

end

def Effect.signs (d : VoteDigest C.Hash) : Effect C → Bool
  | .sign d' _ => decide (d' = d)
  | _ => false

instance (r : Replica C) (d : VoteDigest C.Hash) : Decidable (r.Signed d) :=
  decidable_of_iff (r.effects.any (Effect.signs d) = true) (by
    rw [List.any_eq_true]
    constructor
    · rintro ⟨e, he, hs⟩
      cases e with
      | sign d' verdict => exact ⟨verdict, of_decide_eq_true hs ▸ he⟩
      | _ => cases hs
    · rintro ⟨verdict, he⟩
      exact ⟨_, he, decide_eq_true rfl⟩)

instance [DecidableEq C.Sig] : DecidableEq (QC C) := fun a b =>
  decidable_of_iff
    (a.msgType = b.msgType ∧ a.view = b.view ∧ a.nodeHash = b.nodeHash ∧ a.sigs = b.sigs) (by
      cases a
      cases b
      simp)

def Wire.same [DecidableEq C.Sig] : Wire C → Wire C → Bool
  | .hello a b, .hello a' b' => a = a' ∧ b = b'
  | .proposal a b c d, .proposal a' b' c' d' => a = a' ∧ b = b' ∧ c = c' ∧ d = d'
  | .phaseQc a b c d, .phaseQc a' b' c' d' => a = a' ∧ b = b' ∧ c = c' ∧ d = d'
  | .vote a b c d e, .vote a' b' c' d' e' => a = a' ∧ b = b' ∧ c = c' ∧ d = d' ∧ e = e'
  | .newView a b c, .newView a' b' c' => a = a' ∧ b = b' ∧ c = c'
  | _, _ => false

instance [DecidableEq C.Sig] : DecidableEq (Wire C) := fun a b =>
  decidable_of_iff (a.same b = true) (by cases a <;> cases b <;> simp [Wire.same])

def Effect.broadcasts [DecidableEq C.Sig] (msg : Wire C) : Effect C → Bool
  | .broadcast msg' => decide (msg' = msg)
  | _ => false

instance [DecidableEq C.Sig] (msg : Wire C) (effects : List (Effect C)) :
    Decidable (Effect.broadcast msg ∈ effects) :=
  decidable_of_iff (effects.any (Effect.broadcasts msg) = true) (by
    rw [List.any_eq_true]
    constructor
    · rintro ⟨e, he, hs⟩
      cases e with
      | broadcast msg' => exact of_decide_eq_true hs ▸ he
      | _ => cases hs
    · intro he
      exact ⟨_, he, decide_eq_true rfl⟩)

instance (K : Cluster C) (rs : Nat → Replica C) (i : Nat) (msg : Wire C) :
    Decidable (K.Unforged rs i msg) :=
  inferInstanceAs (Decidable (∀ s ∈ msg.signatures, _))

instance (K : Cluster C) (rs : Nat → Replica C) (i : Nat) (msg : Wire C) :
    Decidable (K.Authentic rs i msg) :=
  inferInstanceAs (Decidable (_ ∧ _))

def Event.wire : Event C → Option (Wire C)
  | .message msg => some msg
  | _ => none

def Wire.proposed : Wire C → Option (Node C)
  | .proposal _ node _ _ => some node
  | _ => none

/-- A node's next turn: it finishes its pass, or takes an event and makes a
whole pass. Maps are read as they are stored. -/
def Machine.turn (keys : Nat → Option C.Key) (w : Wiring C) (m : Machine C) :
    Option (Event C) → Option (Machine C)
  | none => (runRules w .asStored m.todo m.replica).toOption.map (⟨·, []⟩)
  | some ev =>
    if m.todo.isEmpty ∧ ¬ finished w m.replica then
      ((handleEvent keys w m.replica ev).bind (tryAdvance w .asStored)).toOption.map (⟨·, []⟩)
    else none

/-- Node by node, turn by turn, in a build with overflow checks; `none` once a turn is
not possible. -/
def System.play (K : Cluster C) (net : Delivery C) [∀ rs i msg, Decidable (net rs i msg)] :
    List (Nat × Option (Event C)) → System C → Option (System C)
  | [], s => some s
  | (i, ev) :: rest, s =>
    if K.Honest i ∧ K.overflowChecks = true ∧
        ∀ msg ∈ (ev.bind Event.wire).toList, net s.replicas i msg then
      ((s i).turn K.peerKeys (K.wiring i) ev).bind (fun m =>
        System.play K net rest (Function.update s i m))
    else none

section
variable {keys : Nat → Option C.Key} {w : Wiring C}

theorem toOption_map_some {x : Except ε α} {f : α → β} {b : β}
    (h : x.toOption.map f = some b) : ∃ a, x = .ok a ∧ f a = b := by
  cases x with
  | error e => cases h
  | ok a => exact ⟨a, rfl, Option.some.inj h⟩

theorem toOption_any {x : Except ε α} {f : α → Bool} (h : x.toOption.any f = true) :
    ∃ a, x = .ok a ∧ f a = true := by
  cases x with
  | error e => cases h
  | ok a => exact ⟨a, rfl, h⟩

theorem consume_step {m m' : Machine C} {ev : Event C}
    (h : m.consume keys w ev = some m') : Machine.Step keys w (some ev) m m' := by
  obtain ⟨r, todo⟩ := m
  unfold Machine.consume at h
  split at h
  · rename_i hidle
    cases hidle.1
    obtain ⟨r', hran, rfl⟩ := toOption_map_some h
    exact .event ev r r' hidle.2 hran
  · cases h

theorem advance_step {m m' : Machine C} {ord : Order}
    (h : m.advance w ord = some m') : Machine.Step keys w none m m' := by
  obtain ⟨r, todo⟩ := m
  unfold Machine.advance at h
  dsimp only at h
  split at h
  · cases h
  · obtain ⟨r', hran, rfl⟩ := toOption_map_some h
    exact .rule ord _ _ r r' hran

theorem rules_run {P : Machine C → Prop} (hs : ∀ m m', P m → Machine.Step keys w none m m' → P m')
    (h : runRules w ord rules r = .ok r') (hp : P ⟨r, rules⟩) : P ⟨r', []⟩ := by
  induction rules generalizing r with
  | nil => cases h; exact hp
  | cons rule rest ih =>
    obtain ⟨mid, hrun, hrest⟩ := bind_ok.mp h
    exact ih hrest (hs _ _ hp (.rule ord rule rest r mid hrun))

/-- What every step of a node keeps, a turn keeps. -/
theorem turn_run {P : Machine C → Prop} {ev : Option (Event C)} {m m' : Machine C}
    (hs : ∀ m m', P m → Machine.Step keys w none m m' → P m')
    (he : ∀ m', Machine.Step keys w ev m m' → P m')
    (h : m.turn keys w ev = some m') (hp : P m) : P m' := by
  obtain ⟨r, todo⟩ := m
  cases ev with
  | none =>
    obtain ⟨r', hrun, rfl⟩ := toOption_map_some h
    exact rules_run hs hrun hp
  | some ev =>
    unfold Machine.turn at h
    dsimp only at h
    split at h
    · rename_i hidle
      obtain ⟨r', hrun, rfl⟩ := toOption_map_some h
      obtain ⟨mid, hev, hpass⟩ := bind_ok.mp hrun
      cases List.isEmpty_iff.mp hidle.1
      exact rules_run hs hpass (he _ (.event ev r mid hidle.2 hev))
    · cases h

end

/-- A schedule that plays to its end is a run. -/
theorem play_reach {K : Cluster C} {net : Delivery C} [∀ rs i msg, Decidable (net rs i msg)]
    {schedule : List (Nat × Option (Event C))} {s s' : System C} (hr : System.Reach K net s)
    (h : System.play K net schedule s = some s') : System.Reach K net s' := by
  induction schedule generalizing s with
  | nil => cases h; exact hr
  | cons turn rest ih =>
    obtain ⟨i, ev⟩ := turn
    unfold System.play at h
    split at h
    · rename_i hok
      obtain ⟨m, hturn, hrest⟩ := Option.bind_eq_some_iff.mp h
      refine ih ?_ hrest
      have hadmit : ∀ msg, ev = some (.message msg) → net s.replicas i msg := by
        rintro msg rfl
        exact hok.2.2 msg (by simp [Event.wire])
      apply turn_run (P := fun m => System.Reach K net (Function.update s i m)) _ _ hturn
      · simpa using hr
      · intro m m' hm hstep
        have hbound := step_bounded hstep hok.2.1
        have hnext := System.Reach.step hm
          (.move _ i none m' hok.1 (by simp) (by simpa using hstep) (by simpa using hbound))
        simpa using hnext
      · intro m' hstep
        exact hr.step (.move s i ev m' hok.1 hadmit hstep (step_bounded hstep hok.2.1))
    · cases h

/-- A schedule that plays to a state with some property. -/
theorem play_exists {K : Cluster C} {net : Delivery C} [∀ rs i msg, Decidable (net rs i msg)]
    {schedule : List (Nat × Option (Event C))} {check : System C → Bool}
    (h : (System.play K net schedule (System.start K)).any check = true) :
    ∃ s, System.Reach K net s ∧ check s = true := by
  obtain ⟨s, hs, hc⟩ := Option.any_eq_true _ _ |>.mp h
  exact ⟨s, play_reach .start hs, hc⟩

/-- Each node of a system runs by itself as well. -/
theorem System.Reach.machine {K : Cluster C} {net : Delivery C} {s : System C}
    (hr : System.Reach K net s) (i : Nat) : Machine.Reach (K.wiring i) K.n (s i) := by
  induction hr with
  | start => exact .start
  | step _ hstep ih =>
    cases hstep with
    | move j ev m honest admitted moved bounded =>
      by_cases hij : i = j
      · subst j
        rw [Function.update_self]
        exact ih.step K.peerKeys ev moved bounded
      · rw [Function.update_of_ne hij]
        exact ih

/-- An event that a waiting node takes leaves it at the start of a pass. -/
theorem System.Reach.before_pass {K : Cluster C} {net : Delivery C} {s : System C}
    (hr : System.Reach K net s) {i : Nat} (hidle : (s i).todo = [])
    (hrunning : ¬ finished (K.wiring i) (s i).replica) (ev : Event C) {r : Replica C}
    (hev : handleEvent K.peerKeys (K.wiring i) (s i).replica ev = .ok r)
    (hbound : ¬ Wraps (s i).replica r) : Machine.Reach (K.wiring i) K.n ⟨r, passOrder⟩ := by
  have hm := hr.machine i
  rw [show s i = ⟨(s i).replica, []⟩ by rw [← hidle]] at hm
  exact hm.step _ _ (.event ev _ r hrunning hev) hbound

/-- Blocks that all hold the same transactions, over a genesis of one account. -/
def steadyWorkload (C : Crypto) (numBlocks : UInt32) (txs : List Tx) : Workload C where
  manifest := ⟨1, 10, numBlocks⟩
  commitJson height := some ⟨height.toUInt32, "", 0⟩
  transactions _ := some txs
  proof _ := none

/-- Every digest is its preimage. -/
abbrev plainCrypto : Crypto := tabled 0 [] (fun _ => none)

/-! Four replicas, of which node 3 is byzantine. -/
namespace Quartet

abbrev crypto : Crypto := tabled 0 [[0, 2, 0] ++ le64 0] (fun _ => some (.inr []))

def cluster : Cluster crypto where
  n := 4
  byz := {3}
  key i := (i : Nat)
  secret i := (i : Nat)
  workload := steadyWorkload crypto 3 []
  validator _ := .reexecute 0
  timeoutBaseMs := 1000
  overflowChecks := true

/-- The first block, whose digest is `.inl 1`. -/
def first : Node crypto := ⟨.inl 0, .inr [], 0⟩

def vote (ty : MsgType) (voter : Nat) : Event crypto :=
  .message (.vote ty 1 (.inl 1) voter (voter, ⟨ty, 1, .inl 1⟩))

def cert (ty : MsgType) : QC crypto :=
  ⟨ty, 1, .inl 1, [0, 1, 3].map (fun voter => (voter, (voter, ⟨ty, 1, .inl 1⟩)))⟩

/-- Nodes 0 and 1 decide the first block with the votes of node 3. -/
def schedule : List (Nat × Option (Event crypto)) :=
  [(0, none), (1, none), (0, some (.message (.newView 0 none 1))),
    (0, some (.message (.newView 0 none 3))), (0, some (.validated 0)),
    (1, some (.message (.proposal 1 first none 0))), (1, some (.validated 0)),
    (0, some (vote .prepare 1)), (0, some (vote .prepare 3)),
    (1, some (.message (.phaseQc .preCommit 1 (cert .prepare) 0))),
    (0, some (vote .preCommit 1)), (0, some (vote .preCommit 3)),
    (1, some (.message (.phaseQc .commit 1 (cert .preCommit) 0))),
    (0, some (vote .commit 1)), (0, some (vote .commit 3)),
    (1, some (.message (.phaseQc .decide 1 (cert .commit) 0)))]

/-- The block on top of the first one. -/
def second : Node crypto := ⟨.inl 1, .inr [], 1⟩

def secondVote (ty : MsgType) (voter : Nat) : Event crypto :=
  .message (.vote ty 2 (nodeHash second) voter (voter, ⟨ty, 2, nodeHash second⟩))

def secondCert (ty : MsgType) : QC crypto :=
  ⟨ty, 2, nodeHash second, [0, 1, 3].map (fun voter => (voter, (voter, ⟨ty, 2, nodeHash second⟩)))⟩

/-- They go on to view 2, where node 1 leads, and decide the second block. -/
def bothBlocks : List (Nat × Option (Event crypto)) :=
  schedule ++ [(1, some (.message (.newView 1 (some (cert .prepare)) 0))),
    (1, some (.message (.newView 1 none 3))), (1, some (.validated 0)),
    (0, some (.message (.proposal 2 second (some (cert .prepare)) 1))), (0, some (.validated 0)),
    (1, some (secondVote .prepare 0)), (1, some (secondVote .prepare 3)),
    (0, some (.message (.phaseQc .preCommit 2 (secondCert .prepare) 1))),
    (1, some (secondVote .preCommit 0)), (1, some (secondVote .preCommit 3)),
    (0, some (.message (.phaseQc .commit 2 (secondCert .preCommit) 1))),
    (1, some (secondVote .commit 0)), (1, some (secondVote .commit 3)),
    (0, some (.message (.phaseQc .decide 2 (secondCert .commit) 1)))]

end Quartet

/-! A cluster of one node, whose blocks each move 3 from account 0 to account 1. -/
namespace Solo

abbrev crypto : Crypto :=
  tabled 0 [[0, 2, 0] ++ le64 0, [1, 0, 2, 0] ++ le64 1] (fun _ => some (.inr []))

def cluster : Cluster crypto where
  n := 1
  byz := ∅
  key i := (i : Nat)
  secret i := (i : Nat)
  workload := steadyWorkload crypto 3 [⟨0, 1, 3⟩]
  validator _ := .reexecute 0
  timeoutBaseMs := 1000
  overflowChecks := true

/-- Two blocks are decided and executed. -/
def schedule : List (Nat × Option (Event crypto)) :=
  [(0, none), (0, some (.validated 0)), (0, some (.timer 0)), (0, some (.validated 0))]

end Solo

end ZkStf
