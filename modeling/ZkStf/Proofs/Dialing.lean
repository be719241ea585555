import ZkStf.Proofs.Identity

namespace ZkStf
open ZkStf.Basis
variable {C : Crypto}

/-- What becomes of a connection at one side. -/
inductive Status
  | pending
  | live
  | closed
deriving DecidableEq, Repr

/-- What one side has done with its two connections: published none; kept `c`,
and dropped the other one if `dup`; lost `c` before the other one came; taken
the other one after `c` was lost; lost both. -/
inductive Side
  | empty
  | held (c dup : Bool)
  | lost (c : Bool)
  | moved (c : Bool)
  | gone (c : Bool)
deriving DecidableEq, Repr

namespace Side

def conn : Side → Bool → Status
  | .empty, _ => .pending
  | .held c dup, d => if d = c then .live else if dup then .closed else .pending
  | .lost c, d => if d = c then .closed else .pending
  | .moved c, d => if d = c then .closed else .live
  | .gone _, _ => .closed

def entry : Side → Option Bool
  | .held c _ => some c
  | .moved c => some (!c)
  | _ => none

/-- The connection that was published first. -/
def first : Side → Option Bool
  | .empty => none
  | .held c _ => some c
  | .lost c => some c
  | .moved c => some c
  | .gone c => some c

def publish : Side → Bool → Side
  | .empty, c => .held c false
  | .held c _, _ => .held c true
  | .lost c, _ => .moved c
  | s, _ => s

def endOfStream : Side → Side
  | .held c false => .lost c
  | .held c true => .gone c
  | .moved c => .gone c
  | s => s

theorem held_live : ∀ c dup d : Bool, (held c dup).conn d = .live → d = c := by
  decide

theorem held_closed : ∀ c dup d : Bool, (held c dup).conn d = .closed → c = !d ∧ dup = true := by
  decide

theorem held_published : ∀ c d : Bool, (held c true).conn d ≠ .pending := by
  decide

theorem lost_not_live : ∀ c d : Bool, (lost c).conn d ≠ .live := by
  decide

theorem moved_published : ∀ c d : Bool, (moved c).conn d ≠ .pending := by
  decide

theorem moved_live : ∀ c d : Bool, (moved c).conn d = .live → d = !c := by
  decide

theorem publish_spec : ∀ (s : Side) (c : Bool), s.conn c = .pending →
    (∀ d, (s.publish c).conn d =
      if d = c then (if s.entry.isSome then .closed else .live) else s.conn d) ∧
    (s.publish c).entry = s.entry.or (some c) ∧ (s.publish c).first = s.first.or (some c) := by
  intro s
  cases s with
  | empty => decide
  | held d dup => revert d dup; decide
  | lost d => revert d; decide
  | moved d => revert d; decide
  | gone d => revert d; decide

theorem endOfStream_spec : ∀ (s : Side) (c : Bool), s.conn c = .live →
    (∀ d, s.endOfStream.conn d = if d = c then .closed else s.conn d) ∧
    s.endOfStream.entry = none ∧ s.endOfStream.first = s.first := by
  intro s
  cases s with
  | empty => decide
  | held d dup => revert d dup; decide
  | lost d => revert d; decide
  | moved d => revert d; decide
  | gone d => revert d; decide

end Side

/-- The connection task of a host stands where the side says. -/
inductive Standing (peer : Nat) : Conn → Status → Prop
  | handshaking : Standing peer .handshaking .pending
  | keyed : Standing peer (.keyed peer) .pending
  | live : Standing peer (.live peer) .live
  | closed : Standing peer .closed .closed

theorem Standing.of_handshaking (h : Standing peer .handshaking st) : st = .pending := by
  cases h
  rfl

theorem Standing.of_keyed (h : Standing peer (.keyed p) st) : p = peer ∧ st = .pending := by
  cases h
  exact ⟨rfl, rfl⟩

theorem Standing.of_live (h : Standing peer (.live p) st) : p = peer ∧ st = .live := by
  cases h
  exact ⟨rfl, rfl⟩

theorem Standing.closed_iff (h : Standing peer k st) : k = .closed ↔ st = .closed := by
  cases h <;> simp

theorem Standing.live_iff (h : Standing peer k st) : k.isLive = true ↔ st = .live := by
  cases h <;> simp [Conn.isLive]

/-- A host does with the two connections of a peer what the side says. -/
structure SideAt (peer : Nat) (h : Host C) (s : Side) : Prop where
  conn : ∀ c : Bool, Standing peer (h.conns c.toNat) (s.conn c)
  entry : h.peerWriters.get? peer = s.entry.map Bool.toNat

section
variable {peer n : Nat} {w : Wiring C} {h h' : Host C} {s : Side} {c : Bool}

theorem toNat_update (conns : Nat → Conn) (c d : Bool) (st : Conn) :
    Function.update conns c.toNat st d.toNat = if d = c then st else conns d.toNat := by
  rw [Function.update_apply]
  cases c <;> cases d <;> rfl

theorem SideAt.with_conn (hs : SideAt peer h s) {s' : Side} {st : Conn} {status : Status}
    (hst : Standing peer st status)
    (hconn : ∀ d, s'.conn d = if d = c then status else s.conn d)
    (hentry : h'.peerWriters.get? peer = s'.entry.map Bool.toNat)
    (hh : h'.conns = Function.update h.conns c.toNat st) : SideAt peer h' s' := by
  refine ⟨?_, hentry⟩
  intro d
  rw [hh, toNat_update, hconn]
  split
  · exact hst
  · exact hs.conn d

theorem SideAt.greet {pubkey : List UInt8} (hs : SideAt peer h s)
    (hk : (C.keyOfBytes pubkey).isSome)
    (ha : h.act w n (.greet c.toNat (.hello peer pubkey)) = some h') : SideAt peer h' s := by
  obtain ⟨key, hkey⟩ := Option.isSome_iff_exists.mp hk
  obtain ⟨hwait, rfl⟩ := act_greet ha
  have hc := hs.conn c
  rw [hwait] at hc
  unfold Host.greet handshake
  dsimp only
  rw [hkey]
  refine hs.with_conn (c := c) .keyed ?_ hs.entry rfl
  intro d
  split
  · subst d
    exact hc.of_handshaking
  · rfl

/-- Publishing a connection does to the host what it does to the side. -/
theorem SideAt.publish (hs : SideAt peer h s) (ha : h.act w n (.publish c.toNat) = some h') :
    s.conn c = .pending ∧ SideAt peer h' (s.publish c) := by
  obtain ⟨p, hkeyed, rfl⟩ := act_publish ha
  have hc := hs.conn c
  rw [hkeyed] at hc
  obtain ⟨rfl, hpending⟩ := hc.of_keyed
  obtain ⟨hconn, hentry, _⟩ := s.publish_spec c hpending
  refine ⟨hpending, ?_⟩
  unfold Host.publish
  rw [hs.entry, Option.isSome_map]
  cases he : s.entry with
  | none =>
    rw [he] at hconn hentry
    refine hs.with_conn (c := c) .live hconn ?_ rfl
    simp [Host.withConn, hentry]
  | some e =>
    rw [he] at hconn hentry
    refine hs.with_conn (c := c) .closed hconn ?_ rfl
    have hold := hs.entry
    rw [he] at hold
    simp [Host.withConn, hentry, hold]

theorem SideAt.end_of_stream (hs : SideAt peer h s) (hl : h.conns c.toNat = .live p)
    (ha : h.act w n (.readClosed c.toNat) = some h') :
    s.conn c = .live ∧ SideAt peer h' s.endOfStream := by
  have hc := hs.conn c
  rw [hl] at hc
  obtain ⟨rfl, hlive⟩ := hc.of_live
  obtain ⟨hconn, hentry, _⟩ := s.endOfStream_spec c hlive
  rcases act_readClosed ha with ⟨hwait, _⟩ | ⟨peerId, hsame, rfl⟩
  · cases hwait.symm.trans hl
  cases hsame.symm.trans hl
  refine ⟨hlive, hs.with_conn (c := c) .closed hconn ?_ rfl⟩
  simp [Host.readClosed, Host.withConn, EntryMap.get?_erase, hentry]

end

def Dial.published (x : Bool) : Dial → Option Bool
  | .publish y c => if y = x then some c else none
  | _ => none

/-- The connection that node `x` publishes first. -/
def firstPublished (x : Bool) (acts : List Dial) : Option Bool :=
  acts.findSome? (Dial.published x)

/-- Some end of a stream is handled before some connection is published. -/
def EarlyEnd (acts : List Dial) : Prop :=
  ∃ x c y d, [.endOfStream x c, .publish y d].Sublist acts

theorem firstPublished_snoc (x : Bool) (acts : List Dial) (a : Dial) :
    firstPublished x (acts ++ [a]) = (firstPublished x acts).or (a.published x) := by
  simp [firstPublished, List.findSome?_append]

theorem earlyEnd_snoc {acts : List Dial} {a : Dial} : EarlyEnd (acts ++ [a]) ↔
    EarlyEnd acts ∨ (∃ y d, a = .publish y d) ∧ ∃ x c, .endOfStream x c ∈ acts := by
  constructor
  · rintro ⟨x, c, y, d, hsub⟩
    obtain ⟨l₁, l₂, he, h₁, h₂⟩ := List.sublist_append_iff.mp hsub
    rcases List.sublist_singleton.mp h₂ with rfl | rfl
    · left
      rw [List.append_nil] at he
      exact ⟨x, c, y, d, he ▸ h₁⟩
    · right
      have hsplit : [Dial.endOfStream x c] ++ [.publish y d] = l₁ ++ [a] := he
      obtain ⟨rfl, ha⟩ := List.append_inj' hsplit rfl
      exact ⟨⟨y, d, (List.cons.inj ha).1.symm⟩, x, c, List.singleton_sublist.mp h₁⟩
  · rintro (⟨x, c, y, d, hsub⟩ | ⟨⟨y, d, rfl⟩, x, c, hmem⟩)
    · exact ⟨x, c, y, d, hsub.trans (List.sublist_append_left _ _)⟩
    · exact ⟨x, c, y, d, (List.singleton_sublist.mpr hmem).append (List.Sublist.refl [_])⟩

/-- How the two sides stand to each other. As long as no stream has ended each
side keeps what it published first. The first end of a stream leaves side `x`
without the connection it had, either before it published the other one, which
it can still take, or after, and then the other side loses its own too. -/
inductive Stage (acts : List Dial) (side : Bool → Side) : Prop
  | calm (quiet : ∀ x c, .endOfStream x c ∉ acts)
      (each : ∀ x, side x = .empty ∨ ∃ c dup, side x = .held c dup)
  | vacant (x c : Bool) (mine : side x = .lost c) (theirs : side (!x) = .held (!c) true)
      (ended : ∃ x c, .endOfStream x c ∈ acts)
  | reopened (x c : Bool) (mine : side x = .moved c) (theirs : side (!x) = .held (!c) true)
      (early : EarlyEnd acts)
  | doomed (x c : Bool) (mine : side x = .gone c)
      (theirs : side (!x) = .held (!c) true ∨ side (!x) = .gone (!c)) (late : ¬ EarlyEnd acts)

section
variable {acts : List Dial} {side : Bool → Side} {y d : Bool}

theorem quiet_late (quiet : ∀ x c, .endOfStream x c ∉ acts) : ¬ EarlyEnd acts := by
  rintro ⟨x, c, _, _, hsub⟩
  exact quiet x c (hsub.subset (by simp))

theorem late_snoc {a : Dial} (late : ¬ EarlyEnd acts) (ha : ∀ y d, a ≠ .publish y d) :
    ¬ EarlyEnd (acts ++ [a]) := by
  intro hearly
  rcases earlyEnd_snoc.mp hearly with h | ⟨⟨y, d, he⟩, _⟩
  · exact late h
  · exact ha y d he

theorem Stage.greet (h : Stage acts side) (x c : Bool) : Stage (acts ++ [.greet x c]) side := by
  cases h with
  | calm quiet each => exact .calm (by simpa using quiet) each
  | vacant x c mine theirs ended =>
    obtain ⟨x', c', hm⟩ := ended
    exact .vacant x c mine theirs ⟨x', c', List.mem_append_left _ hm⟩
  | reopened x c mine theirs early =>
    exact .reopened x c mine theirs (earlyEnd_snoc.mpr (Or.inl early))
  | doomed x c mine theirs late => exact .doomed x c mine theirs (late_snoc late (by simp))

theorem Stage.publish (h : Stage acts side) (hp : (side y).conn d = .pending) :
    Stage (acts ++ [.publish y d]) (Function.update side y ((side y).publish d)) := by
  cases h with
  | calm quiet each =>
    refine .calm (by simpa using quiet) ?_
    intro x
    rw [Function.update_apply]
    split
    · subst x
      right
      rcases each y with he | ⟨c, dup, he⟩
      · exact ⟨d, false, by rw [he]; rfl⟩
      · exact ⟨c, true, by rw [he]; rfl⟩
    · exact each x
  | vacant x c mine theirs ended =>
    rcases Bool.eq_or_eq_not y x with rfl | rfl
    · refine .reopened y c ?_ ?_ (earlyEnd_snoc.mpr (Or.inr ⟨⟨y, d, rfl⟩, ended⟩))
      · rw [Function.update_self, mine]
        rfl
      · rw [Function.update_of_ne (by simp), theirs]
    · rw [theirs] at hp
      exact absurd hp (Side.held_published _ _)
  | reopened x c mine theirs early =>
    rcases Bool.eq_or_eq_not y x with rfl | rfl
    · rw [mine] at hp
      exact absurd hp (Side.moved_published _ _)
    · rw [theirs] at hp
      exact absurd hp (Side.held_published _ _)
  | doomed x c mine theirs late =>
    rcases Bool.eq_or_eq_not y x with rfl | rfl
    · rw [mine] at hp
      cases hp
    · rcases theirs with theirs | theirs
      · rw [theirs] at hp
        exact absurd hp (Side.held_published _ _)
      · rw [theirs] at hp
        cases hp

theorem Stage.end_of_stream (h : Stage acts side) (hl : (side y).conn d = .live)
    (hc : (side (!y)).conn d = .closed) :
    Stage (acts ++ [.endOfStream y d]) (Function.update side y (side y).endOfStream) := by
  have hother : Function.update side y (side y).endOfStream (!y) = side (!y) :=
    Function.update_of_ne (by simp) ..
  cases h with
  | calm quiet each =>
    have hlate := late_snoc (a := .endOfStream y d) (quiet_late quiet) (by simp)
    rcases each y with he | ⟨c, dup, he⟩
    · rw [he] at hl
      cases hl
    rcases each (!y) with ho | ⟨c', dup', ho⟩
    · rw [ho] at hc
      cases hc
    rw [he] at hl
    rw [ho] at hc
    cases Side.held_live c dup d hl
    obtain ⟨rfl, rfl⟩ := Side.held_closed c' dup' d hc
    cases dup with
    | false =>
      refine .vacant y d ?_ (hother.trans ho) ⟨y, d, by simp⟩
      rw [Function.update_self, he]
      rfl
    | true =>
      refine .doomed y d ?_ (Or.inl (hother.trans ho)) hlate
      rw [Function.update_self, he]
      rfl
  | vacant x c mine theirs ended =>
    rcases Bool.eq_or_eq_not y x with rfl | rfl
    · rw [mine] at hl
      exact absurd hl (Side.lost_not_live c d)
    · rw [theirs] at hl
      rw [Bool.not_not, mine] at hc
      cases Side.held_live _ _ d hl
      simp [Side.conn] at hc
  | reopened x c mine theirs early =>
    rcases Bool.eq_or_eq_not y x with rfl | rfl
    · rw [mine] at hl
      cases Side.moved_live c d hl
      rw [theirs] at hc
      simp [Side.conn] at hc
    · rw [theirs] at hl
      rw [Bool.not_not, mine] at hc
      cases Side.held_live _ _ d hl
      simp [Side.conn] at hc
  | doomed x c mine theirs late =>
    rcases Bool.eq_or_eq_not y x with rfl | rfl
    · rw [mine] at hl
      cases hl
    · rw [Bool.not_not] at hother
      refine .doomed x c (hother.trans mine) (Or.inr ?_) (late_snoc late (by simp))
      rw [Function.update_self]
      rcases theirs with theirs | theirs
      · rw [theirs]
        rfl
      · rw [theirs] at hl
        cases hl

end

section
variable {side : Bool → Side}

/-- Each side keeps a connection that is open on both. -/
def Joined (side : Bool → Side) : Prop :=
  ∀ x, ∃ c, (side x).entry = some c ∧ ∀ y, (side y).conn c ≠ .closed

/-- Once all is published, two sides that lost nothing keep the same connection. -/
theorem calm_joined (each : ∀ x, side x = .empty ∨ ∃ c dup, side x = .held c dup)
    (hpub : ∀ x c, (side x).conn c ≠ .pending)
    (hdrain : ∀ x c, (side x).conn c = .live → (side (!x)).conn c ≠ .closed) :
    ∃ c, ∀ x, side x = .held c true := by
  have hheld : ∀ x, ∃ c, side x = .held c true := by
    intro x
    rcases each x with he | ⟨c, dup, he⟩
    · exact absurd (by rw [he]; rfl) (hpub x true)
    · cases dup with
      | true => exact ⟨c, he⟩
      | false => exact absurd (by rw [he]; simp [Side.conn]) (hpub x (!c))
  obtain ⟨c, hc⟩ := hheld false
  obtain ⟨d, hd⟩ := hheld true
  have hsame : c = d := by
    by_contra hne
    have hopen := hdrain false c (by rw [hc]; simp [Side.conn])
    rw [Bool.not_false, hd] at hopen
    simp [Side.conn, hne] at hopen
  subst d
  refine ⟨c, fun x => ?_⟩
  cases x
  · exact hc
  · exact hd

theorem held_joined {c : Bool} (h : ∀ x, side x = .held c true) : Joined side := by
  intro x
  refine ⟨c, by rw [h]; rfl, fun y => ?_⟩
  rw [h]
  simp [Side.conn]

theorem reopened_joined {x c : Bool} (mine : side x = .moved c)
    (theirs : side (!x) = .held (!c) true) : Joined side := by
  have hboth : ∀ y, (side y).entry = some (!c) ∧ (side y).conn (!c) ≠ .closed := by
    intro y
    rcases Bool.eq_or_eq_not y x with rfl | rfl
    · rw [mine]
      simp [Side.entry, Side.conn]
    · rw [theirs]
      simp [Side.entry, Side.conn]
  exact fun y => ⟨!c, (hboth y).1, fun z => (hboth z).2⟩

theorem doomed_gone {x c : Bool} (mine : side x = .gone c)
    (theirs : side (!x) = .held (!c) true ∨ side (!x) = .gone (!c))
    (hdrain : ∀ x c, (side x).conn c = .live → (side (!x)).conn c ≠ .closed) :
    side (!x) = .gone (!c) := by
  rcases theirs with theirs | theirs
  · have hopen := hdrain (!x) (!c) (by rw [theirs]; simp [Side.conn])
    rw [Bool.not_not, mine] at hopen
    exact absurd rfl hopen
  · exact theirs

end

namespace Dialers
variable (D : Dialers C)

/-- Before the two nodes have heard of each other. -/
def Fresh (hosts : Bool → Host C) : Prop :=
  ∀ x, (∀ c : Bool, (hosts x).conns c.toNat = .handshaking) ∧
    (hosts x).peerWriters.get? (D.peerOf x) = none

/-- All four connection tasks are through, and every reader whose stream was
dropped at the other side has seen its end. -/
structure Settled (hosts : Bool → Host C) : Prop where
  installed : ∀ x (c : Bool), (hosts x).conns c.toNat = .closed ∨
    ((hosts x).conns c.toNat).isLive = true
  drained : ∀ x (c : Bool), ((hosts x).conns c.toNat).isLive = true →
    (hosts (!x)).conns c.toNat ≠ .closed

/-- Each side has a writer for the other, over a connection that neither has dropped. -/
def Linked (hosts : Bool → Host C) : Prop :=
  ∀ x, ∃ c : Bool, (hosts x).peerWriters.get? (D.peerOf x) = some c.toNat ∧
    ∀ y, (hosts y).conns c.toNat ≠ .closed

/-- What the two hosts have done so far, as two sides. -/
structure Tracked (acts : List Dial) (hosts : Bool → Host C) (side : Bool → Side) : Prop where
  hosts : ∀ x, SideAt (D.peerOf x) (hosts x) (side x)
  first : ∀ x, firstPublished x acts = (side x).first
  stage : Stage acts side

variable {D} {hosts hosts' : Bool → Host C} {side : Bool → Side} {acts : List Dial}

theorem Tracked.update (ht : D.Tracked acts hosts side) {x : Bool} {h : Host C} {s : Side}
    (hs : SideAt (D.peerOf x) h s) (y : Bool) :
    SideAt (D.peerOf y) (Function.update hosts x h y) (Function.update side x s y) := by
  by_cases hyx : y = x
  · subst y
    simpa using hs
  · simpa [hyx] using ht.hosts y

theorem Tracked.act (ht : D.Tracked acts hosts side) {a : Dial} (ha : D.act hosts a = some hosts') :
    ∃ side', D.Tracked (acts ++ [a]) hosts' side' := by
  cases a with
  | greet x c =>
    obtain ⟨h, hact, rfl⟩ := Option.map_eq_some_iff.mp ha
    have hs := ht.update ((ht.hosts x).greet (D.decodes _) hact)
    refine ⟨side, by simpa using hs, ?_, ht.stage.greet x c⟩
    intro y
    rw [firstPublished_snoc, ht.first]
    exact Option.or_none
  | publish x c =>
    obtain ⟨h, hact, rfl⟩ := Option.map_eq_some_iff.mp ha
    obtain ⟨hp, hs⟩ := (ht.hosts x).publish hact
    refine ⟨_, ht.update hs, ?_, ht.stage.publish hp⟩
    intro y
    rw [firstPublished_snoc, ht.first]
    by_cases hyx : y = x
    · subst y
      simp [Dial.published, ((side x).publish_spec c hp).2.2]
    · have hxy : ¬ x = y := fun he => hyx he.symm
      simp [Dial.published, hyx, hxy]
  | endOfStream x c =>
    unfold Dialers.act at ha
    dsimp only at ha
    split at ha
    · rename_i p hlive hclosed
      obtain ⟨h, hact, rfl⟩ := Option.map_eq_some_iff.mp ha
      obtain ⟨hl, hs⟩ := (ht.hosts x).end_of_stream hlive hact
      have hc := (ht.hosts (!x)).conn c
      rw [hclosed] at hc
      refine ⟨_, ht.update hs, ?_, ht.stage.end_of_stream hl (hc.closed_iff.mp rfl)⟩
      intro y
      rw [firstPublished_snoc, ht.first]
      by_cases hyx : y = x
      · subst y
        simp [Dial.published, ((side x).endOfStream_spec c hl).2.2]
      · simp [Dial.published, hyx]
    · cases ha

theorem run_tracked (hf : D.Fresh hosts) (hr : D.run hosts acts = some hosts') :
    ∃ side, D.Tracked acts hosts' side := by
  refine follow_invariant (P := fun acts hosts => ∃ side, D.Tracked acts hosts side)
    ⟨fun _ => .empty, ?_, fun _ => rfl, .calm (by simp) (fun _ => Or.inl rfl)⟩ ?_ hr
  · intro x
    refine ⟨?_, (hf x).2⟩
    intro c
    rw [(hf x).1 c]
    exact .handshaking
  · rintro past hosts a hosts' ⟨side, ht⟩ ha
    exact ht.act ha

theorem Tracked.linked_iff (ht : D.Tracked acts hosts side) :
    D.Linked hosts ↔ Joined side := by
  have hentry : ∀ x (c : Bool), (hosts x).peerWriters.get? (D.peerOf x) = some c.toNat ↔
      (side x).entry = some c := by
    intro x c
    rw [(ht.hosts x).entry]
    cases (side x).entry with
    | none => simp
    | some d => cases c <;> cases d <;> simp
  have hconn : ∀ y (c : Bool), (hosts y).conns c.toNat ≠ .closed ↔ (side y).conn c ≠ .closed :=
    fun y c => not_congr ((ht.hosts y).conn c).closed_iff
  simp only [Linked, Joined, hentry, hconn]

theorem Tracked.published (ht : D.Tracked acts hosts side) (hset : Settled hosts) (x c : Bool) :
    (side x).conn c ≠ .pending := by
  have hc := (ht.hosts x).conn c
  intro hp
  rcases hset.installed x c with hclosed | hlive
  · rw [hc.closed_iff.mp hclosed] at hp
    cases hp
  · rw [hc.live_iff.mp hlive] at hp
    cases hp

theorem Tracked.drained (ht : D.Tracked acts hosts side) (hset : Settled hosts) (x c : Bool)
    (hl : (side x).conn c = .live) : (side (!x)).conn c ≠ .closed := by
  have hlive := ((ht.hosts x).conn c).live_iff.mpr hl
  exact fun hc => hset.drained x c hlive (((ht.hosts (!x)).conn c).closed_iff.mpr hc)

end Dialers

/-- Simultaneous dialing leaves a usable link if both nodes publish the same
connection first, or if one of them sees a stream end before the last
connection is published; otherwise both lose both connections. -/
theorem dialing_links {D : Dialers C} {start hosts : Bool → Host C} {acts : List Dial}
    (hf : D.Fresh start) (hr : D.run start acts = some hosts) (hset : Dialers.Settled hosts) :
    D.Linked hosts ↔
      firstPublished false acts = firstPublished true acts ∨ EarlyEnd acts := by
  obtain ⟨side, ht⟩ := Dialers.run_tracked hf hr
  have hpub := ht.published hset
  have hdrain := ht.drained hset
  rw [ht.linked_iff]
  cases ht.stage with
  | calm quiet each =>
    obtain ⟨c, hheld⟩ := calm_joined each hpub hdrain
    refine iff_of_true (held_joined hheld) (Or.inl ?_)
    rw [ht.first, ht.first, hheld, hheld]
  | vacant x c mine theirs ended =>
    exact absurd (by rw [mine]; simp [Side.conn]) (hpub x (!c))
  | reopened x c mine theirs early =>
    exact iff_of_true (reopened_joined mine theirs) (Or.inr early)
  | doomed x c mine theirs late =>
    have hgone := doomed_gone mine theirs hdrain
    refine iff_of_false ?_ ?_
    · intro hjoined
      obtain ⟨d, hentry, _⟩ := hjoined x
      rw [mine] at hentry
      cases hentry
    · rintro (hsame | hearly)
      · rw [ht.first, ht.first] at hsame
        cases x with
        | false =>
          rw [mine, show side true = .gone (!c) from hgone] at hsame
          simp [Side.first] at hsame
        | true =>
          rw [mine, show side false = .gone (!c) from hgone] at hsame
          simp [Side.first] at hsame
      · exact absurd hearly late

/-! Nodes 0 and 1 of a cluster dial each other. -/
namespace Quartet

def dialers : Dialers crypto where
  wiring x := cluster.wiring x.toNat
  n := 4
  pubkey x := List.replicate 32 (UInt8.ofNat x.toNat)
  decodes := by decide

def greetings : List Dial :=
  [.greet false false, .greet false true, .greet true false, .greet true true]

/-- Each node publishes first the connection it dialed itself. -/
def crossing : List Dial :=
  greetings ++ [.publish false false, .publish true true, .publish false true, .publish true false,
    .endOfStream false false, .endOfStream true true]

/-- Both nodes publish first the connection that node 0 dialed. -/
def parallel : List Dial :=
  greetings ++ [.publish false false, .publish true false, .publish false true, .publish true true]

def booted (x : Bool) : Host crypto := .boot x.toNat (keyOf x.toNat)

end Quartet

instance (hosts : Bool → Host C) : Decidable (Dialers.Settled hosts) :=
  decidable_of_iff (_ ∧ _) ⟨fun h => ⟨h.1, h.2⟩, fun h => ⟨h.installed, h.drained⟩⟩

instance (D : Dialers C) (hosts : Bool → Host C) : Decidable (D.Linked hosts) :=
  inferInstanceAs (Decidable (∀ _, ∃ _ : Bool, _))

theorem booted_fresh : Quartet.dialers.Fresh Quartet.booted :=
  fun _ => ⟨fun _ => rfl, rfl⟩

theorem parallel_links : ∃ hosts, Quartet.dialers.run Quartet.booted Quartet.parallel = some hosts ∧
    Dialers.Settled hosts ∧ Quartet.dialers.Linked hosts := by
  have hrun : (Quartet.dialers.run Quartet.booted Quartet.parallel).any (fun hosts =>
      decide (Dialers.Settled hosts)) = true := by
    decide +kernel
  obtain ⟨hosts, hh, hc⟩ := Option.any_eq_true _ _ |>.mp hrun
  have hset := of_decide_eq_true hc
  exact ⟨hosts, hh, hset, (dialing_links booted_fresh hh hset).mpr (Or.inl (by decide))⟩

/-- Node 0 keeps the one connection and node 1 the other, each drops what the
other has kept, and in the end neither has a writer for its peer. -/
theorem crossing_unlinked : ∃ hosts, Quartet.dialers.Fresh Quartet.booted ∧
    Quartet.dialers.run Quartet.booted Quartet.crossing = some hosts ∧
    Dialers.Settled hosts ∧ ¬ Quartet.dialers.Linked hosts := by
  have hrun : (Quartet.dialers.run Quartet.booted Quartet.crossing).any (fun hosts =>
      decide (Dialers.Settled hosts ∧ ¬ Quartet.dialers.Linked hosts)) = true := by
    decide +kernel
  obtain ⟨hosts, hh, hc⟩ := Option.any_eq_true _ _ |>.mp hrun
  exact ⟨hosts, booted_fresh, hh, of_decide_eq_true hc⟩

end ZkStf
