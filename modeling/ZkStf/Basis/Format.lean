import Mathlib.Logic.Equiv.Defs
import ZkStf.Basis.Bytes

namespace ZkStf.Basis

/-- A serialization of the values of a type, with the parser that takes a value off
the front of some bytes. The parser accepts what the writer makes of the values
that fit, and nothing else. -/
structure Format (α : Type) where
  fits : α → Bool
  encode : α → List UInt8
  decode : List UInt8 → Option (α × List UInt8)
  spec : ∀ bytes a rest, decode bytes = some (a, rest) ↔ fits a = true ∧ bytes = encode a ++ rest

namespace Format
variable {α β : Type}

theorem decode_encode (f : Format α) {a : α} (h : f.fits a = true) (rest : List UInt8) :
    f.decode (f.encode a ++ rest) = some (a, rest) :=
  (f.spec _ _ _).mpr ⟨h, rfl⟩

/-- So many bytes as they are. -/
def raw (n : Nat) : Format (List UInt8) where
  fits l := l.length == n
  encode l := l
  decode bytes := if n ≤ bytes.length then some (bytes.take n, bytes.drop n) else none
  spec bytes l rest := by
    constructor
    · intro h
      split at h
      · cases h
        simpa
      · cases h
    · rintro ⟨hlen, rfl⟩
      have hlen : l.length = n := by simpa using hlen
      simp [← hlen]

/-- A number of so many bytes, least significant first. -/
def nat (k : Nat) : Format Nat where
  fits x := decide (x < 256 ^ k)
  encode x := leBytes k x
  decode bytes := ((raw k).decode bytes).map (fun p => (leNat p.1, p.2))
  spec bytes x rest := by
    simp only [Option.map_eq_some_iff, Prod.exists, (raw k).spec, Prod.mk.injEq, decide_eq_true_eq]
    constructor
    · rintro ⟨l, _, ⟨hlen, rfl⟩, rfl, rfl⟩
      have hlen : l.length = k := by simpa [raw] using hlen
      exact ⟨hlen ▸ leNat_lt l, by rw [← hlen, leBytes_leNat]; rfl⟩
    · rintro ⟨hx, rfl⟩
      exact ⟨leBytes k x, rest, ⟨by simp [raw], rfl⟩, leNat_leBytes hx, rfl⟩

/-- The values that some other values stand for. -/
def filterMap (f : Format α) (up : α → Option β) (down : β → α)
    (h : ∀ a b, up a = some b ↔ a = down b) : Format β where
  fits b := f.fits (down b)
  encode b := f.encode (down b)
  decode bytes := (f.decode bytes).bind (fun p => (up p.1).map (·, p.2))
  spec bytes b rest := by
    simp only [Option.bind_eq_some_iff, Prod.exists, f.spec, Option.map_eq_some_iff, h,
      Prod.mk.injEq]
    constructor
    · rintro ⟨_, _, ⟨hfits, rfl⟩, _, rfl, rfl, rfl⟩
      exact ⟨hfits, rfl⟩
    · rintro ⟨hfits, rfl⟩
      exact ⟨_, _, ⟨hfits, rfl⟩, b, rfl, rfl, rfl⟩

def iso (f : Format α) (e : α ≃ β) : Format β :=
  f.filterMap (fun a => some (e a)) e.symm (fun a b => by simp [e.eq_symm_apply])

/-- A number below a bound. -/
def fin (n k : Nat) : Format (Fin n) :=
  (nat k).filterMap (fun x => if h : x < n then some ⟨x, h⟩ else none) Fin.val (fun x i => by
    split
    · simp [Fin.ext_iff]
    · rename_i hx
      simp only [reduceCtorEq, false_iff]
      rintro rfl
      exact hx i.isLt)

/-- The index of a value among all values of its type. -/
def enum [DecidableEq α] (k : Nat) (all : List α) (hnodup : all.Nodup) (hall : ∀ a, a ∈ all) :
    Format α :=
  (nat k).filterMap (fun i => all[i]?) all.idxOf (fun i a => by
    constructor
    · intro h
      obtain ⟨hi, rfl⟩ := List.getElem?_eq_some_iff.mp h
      exact (hnodup.idxOf_getElem i hi).symm
    · rintro rfl
      exact List.getElem?_idxOf (hall a))

/-- The lists of one length. -/
def sized (f : Format (List α)) (n : Nat) : Format { l : List α // l.length = n } :=
  f.filterMap (fun l => if h : l.length = n then some ⟨l, h⟩ else none) Subtype.val
    (fun l b => by
      obtain ⟨b, hb⟩ := b
      split
      · simp
      · rename_i hl
        simp only [reduceCtorEq, false_iff]
        rintro rfl
        exact hl hb)

/-- A value, and one of a type that depends on it. -/
def sigma {γ : α → Type} (f : Format α) (g : ∀ a, Format (γ a)) : Format (Σ a, γ a) where
  fits s := f.fits s.1 && (g s.1).fits s.2
  encode s := f.encode s.1 ++ (g s.1).encode s.2
  decode bytes := (f.decode bytes).bind (fun p =>
    ((g p.1).decode p.2).map (fun q => (⟨p.1, q.1⟩, q.2)))
  spec bytes s rest := by
    obtain ⟨a, c⟩ := s
    simp only [Option.bind_eq_some_iff, Prod.exists, f.spec, Option.map_eq_some_iff, (g _).spec,
      Bool.and_eq_true]
    constructor
    · rintro ⟨_, _, ⟨hfits, rfl⟩, _, _, ⟨hfits', rfl⟩, h⟩
      cases h
      exact ⟨⟨hfits, hfits'⟩, by simp⟩
    · rintro ⟨⟨hfits, hfits'⟩, rfl⟩
      exact ⟨a, _, ⟨hfits, List.append_assoc ..⟩, c, rest, ⟨hfits', rfl⟩, rfl⟩

def pair (f : Format α) (g : Format β) : Format (α × β) :=
  (sigma f (fun _ => g)).iso (Equiv.sigmaEquivProd α β)

/-- A byte tells whether a value follows. -/
def option (f : Format α) : Format (Option α) where
  fits o := o.all f.fits
  encode
    | none => [0]
    | some a => 1 :: f.encode a
  decode
    | [] => none
    | tag :: rest =>
      if tag = 0 then some (none, rest)
      else if tag = 1 then (f.decode rest).map (fun p => (some p.1, p.2))
      else none
  spec bytes o rest := by
    cases bytes with
    | nil => cases o <;> simp
    | cons tag tail =>
      by_cases hzero : tag = 0
      · cases o <;> simp [hzero]
      · by_cases hone : tag = 1
        · cases o <;> simp [hone, f.spec]
        · cases o <;> simp [hzero, hone]

def decodeTimes (f : Format α) : Nat → List UInt8 → Option (List α × List UInt8)
  | 0, bytes => some ([], bytes)
  | n + 1, bytes => (f.decode bytes).bind (fun p =>
      (decodeTimes f n p.2).map (fun q => (p.1 :: q.1, q.2)))

theorem decodeTimes_spec (f : Format α) {n : Nat} {bytes rest : List UInt8} {l : List α} :
    f.decodeTimes n bytes = some (l, rest) ↔
      l.length = n ∧ l.all f.fits = true ∧ bytes = l.flatMap f.encode ++ rest := by
  induction n generalizing bytes rest l with
  | zero => cases l <;> simp [decodeTimes]
  | succ n ih =>
    simp only [decodeTimes, Option.bind_eq_some_iff, Prod.exists, f.spec, Option.map_eq_some_iff,
      ih]
    constructor
    · rintro ⟨a, _, ⟨ha, rfl⟩, tail, _, ⟨hlen, hall, rfl⟩, h⟩
      cases h
      simp_all
    · rintro ⟨hlen, hall, rfl⟩
      cases l with
      | nil => cases hlen
      | cons a l =>
        rw [List.all_cons, Bool.and_eq_true] at hall
        exact ⟨a, _, ⟨hall.1, by rw [List.flatMap_cons, List.append_assoc]⟩, l, rest,
          ⟨by simpa using hlen, hall.2, rfl⟩, rfl⟩

/-- A list after the number of its entries. -/
def list (f : Format α) (k : Nat) : Format (List α) where
  fits l := decide (l.length < 256 ^ k) && l.all f.fits
  encode l := leBytes k l.length ++ l.flatMap f.encode
  decode bytes := ((nat k).decode bytes).bind (fun p => f.decodeTimes p.1 p.2)
  spec bytes l rest := by
    simp only [Option.bind_eq_some_iff, Prod.exists, (nat k).spec, decodeTimes_spec,
      Bool.and_eq_true]
    constructor
    · rintro ⟨_, _, ⟨hsmall, rfl⟩, rfl, hall, rfl⟩
      exact ⟨⟨hsmall, hall⟩, (List.append_assoc ..).symm⟩
    · rintro ⟨⟨hsmall, hall⟩, rfl⟩
      exact ⟨_, _, ⟨hsmall, List.append_assoc ..⟩, rfl, hall, rfl⟩

section
variable {f : Format α} {g : Format β} {a : α} {b : β} {k : Nat} {l : List α}

theorem iso_fits (e : α ≃ β) : (f.iso e).fits b = f.fits (e.symm b) := rfl

theorem iso_encode (e : α ≃ β) : (f.iso e).encode b = f.encode (e.symm b) := rfl

@[simp] theorem pair_fits : (f.pair g).fits (a, b) = (f.fits a && g.fits b) := rfl

@[simp] theorem pair_encode : (f.pair g).encode (a, b) = f.encode a ++ g.encode b := rfl

@[simp] theorem list_fits : (f.list k).fits l = (decide (l.length < 256 ^ k) && l.all f.fits) := rfl

theorem list_length {w : Nat} (h : ∀ a ∈ l, (f.encode a).length = w) :
    ((f.list k).encode l).length = k + l.length * w := by
  simp [list, List.map_eq_replicate_iff.mpr h]

end

end Format
end ZkStf.Basis
