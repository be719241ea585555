import ZkStf.Model.State

namespace ZkStf
open ZkStf.Basis
variable {C : Crypto}

/-- The votes of a bucket regrouped by node, each group in reading order. -/
def groupByNode (votes : List (Nat × C.Hash × C.Sig)) : EntryMap C.Hash (List (Nat × C.Sig)) :=
  votes.foldl
    (fun byNode vote =>
      byNode.insert vote.2.1 ((byNode.get? vote.2.1).getD [] ++ [(vote.1, vote.2.2)])) .empty

/-- A certificate for the first group read that is large enough. -/
def formQc (ord : Order) (votes : EntryMap Nat (C.Hash × C.Sig)) (ty : MsgType)
    (view quorum : Nat) : Option (QC C) :=
  let byNode := groupByNode (ord.list (.votes ty) votes.entries)
  ((ord.list (.byNode ty) byNode.entries).find? (fun group => decide (quorum ≤ group.2.length))).map
    (fun group => ⟨ty, view, group.1, group.2⟩)

/-- One signature of a certificate: counted once per voter, and only from a
voter with a known key. The count is a `u32` and wraps, as the release build does. -/
def countSig (qc : QC C) (keys : Nat → Option C.Key) (acc : Finset Nat × UInt32)
    (entry : Nat × C.Sig) : Finset Nat × UInt32 :=
  if entry.1 ∈ acc.1 then acc
  else
    match keys entry.1 with
    | none => acc
    | some pk =>
      if verifyVoteSig pk qc.msgType qc.view qc.nodeHash entry.2 then
        (insert entry.1 acc.1, acc.2 + 1)
      else acc

def verifyQcSync (qc : QC C) (quorum : Nat) (keys : Nat → Option C.Key) : Bool :=
  decide (quorum ≤ (qc.sigs.foldl (countSig qc keys) (∅, 0)).2.toNat)

def verifyQc (qc : QC C) (quorum : Nat) (keys : Nat → Option C.Key) : Bool :=
  verifyQcSync qc quorum keys

/-- A missing certificate needs no check. -/
def verifyJustify (justify : Option (QC C)) (quorum : Nat) (keys : Nat → Option C.Key) : Bool :=
  justify.all (fun qc => verifyQc qc quorum keys)

end ZkStf
