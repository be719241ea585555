import ZkStf.Model.Certificates

namespace ZkStf
open ZkStf.Basis
variable {C : Crypto}

/-- The state a validation of `node` starts from: `none` defers it. A parent at
or below the last executed height is taken to be the last executed node. -/
def inputState (r : Replica C) (node : Node C) : Option State :=
  if node.parent = genesisHash C then
    if 0 ≤ r.rs.lastExecutedHeight then none else some r.liveState
  else
    match r.rs.tree.get? node.parent with
    | none => none
    | some parentNode =>
      if asI64 parentNode.height ≤ r.rs.lastExecutedHeight then some r.liveState
      else r.rs.postStateByNode node.parent

/-- Hand a block to the validator worker. -/
def submitValidation (leafHash : C.Hash) (node : Node C) (block : BlockRef C) (input : State)
    (r : Replica C) : Replica C :=
  let req : ValidateRequest C :=
    ⟨leafHash, node.height, block.txsPath, block.proofPath, block.info.txsTotal⟩
  ({ r with
    rs := { r.rs with pendingValidation := some leafHash }
    valReqs := r.valReqs ++ [(req, input)] }).emit (.submit req input)

def maybeKickValidation (w : Wiring C) (leafHash : C.Hash) (r : Replica C) :
    Outcome C (Replica C) :=
  if (r.rs.validationResult leafHash).isSome then .ok r
  else if r.rs.pendingValidation = some leafHash then .ok r
  else
    match r.rs.tree.get? leafHash with
    | none => .ok r
    | some node =>
      match w.workload.block node.height with
      | .error e => .error e
      | .ok block =>
        if block.cmd ≠ node.cmd then .ok r
        else
          match inputState r node with
          | none => .ok r
          | some input => .ok (submitValidation leafHash node block input r)

/-- The walk back from a decided node: unknown nodes, executed heights and
genesis end it. More lookups than the tree has nodes mean that it never ends. -/
def walkBack (tree : EntryMap C.Hash (Node C)) (lastExecuted : Int) :
    Nat → C.Hash → List C.Hash → Option (List C.Hash)
  | 0, _, _ => none
  | fuel + 1, cur, chain =>
    match tree.get? cur with
    | none => some chain
    | some node =>
      if asI64 node.height ≤ lastExecuted then some chain
      else if node.parent = genesisHash C then some (chain ++ [cur])
      else walkBack tree lastExecuted fuel node.parent (chain ++ [cur])

/-- Swap in the cached post-state, then the cached post-root. A node validated
from a proof must continue the chained root, except at height 0. -/
def applyNode (nh : C.Hash) (node : Node C) (r : Replica C) : Outcome C (Replica C) :=
  let live := (r.rs.postStateByNode nh).getD r.liveState
  let postStates := Function.update r.rs.postStateByNode nh none
  match r.rs.preRootByNode nh with
  | none =>
    .ok (({ r with
      rs := { r.rs with
        postStateByNode := postStates
        lastExecutedHeight := asI64 node.height }
      liveState := live }).emit (.executed node.height nh))
  | some pre =>
    if 0 < node.height ∧ pre ≠ r.chainedRoot then
      .error (.chainBreak node.height pre r.chainedRoot)
    else
      .ok (({ r with
        rs := { r.rs with
          postStateByNode := postStates
          postRootByNode := Function.update r.rs.postRootByNode nh none
          lastExecutedHeight := asI64 node.height }
        liveState := live
        chainedRoot := (r.rs.postRootByNode nh).getD r.chainedRoot }).emit
          (.executed node.height nh))

/-- Execute a chain in ascending order, up to the first node that is out of
order, invalid or not validated yet. -/
def executeChain (w : Wiring C) : List C.Hash → Replica C → Outcome C (Replica C)
  | [], r => .ok r
  | nh :: rest, r =>
    match r.rs.tree.get? nh with
    | none => .error .chainNodeMissing
    | some node =>
      if asI64 node.height ≠ r.rs.lastExecutedHeight + 1 then .ok r
      else
        match r.rs.validationResult nh with
        | some false => .ok r
        | none => maybeKickValidation w nh r
        | some true => (applyNode nh node r).bind (executeChain w rest)

def tryExecuteChain (w : Wiring C) (decided : C.Hash) (r : Replica C) : Outcome C (Replica C) :=
  match walkBack r.rs.tree r.rs.lastExecutedHeight (r.rs.tree.size + 1) decided [] with
  | none => .error .diverges
  | some chain => executeChain w chain.reverse r

def executeDecided (w : Wiring C) : List C.Hash → Replica C → Outcome C (Replica C)
  | [], r => .ok r
  | nh :: rest, r => (tryExecuteChain w nh r).bind (executeDecided w rest)

def retryPendingExecute (w : Wiring C) (ord : Order) (r : Replica C) : Outcome C (Replica C) :=
  executeDecided w (ord.list .decidedNodes r.rs.decidedNodes.keys) r

/-- The worker is serial: the pass over the leaves ends once one is in flight. -/
def kickLeaves (w : Wiring C) : List C.Hash → Replica C → Outcome C (Replica C)
  | [], r => .ok r
  | nh :: rest, r =>
    if r.rs.pendingValidation.isSome then .ok r
    else (maybeKickValidation w nh r).bind (kickLeaves w rest)

def tryKickPendingValidations (w : Wiring C) (ord : Order) (r : Replica C) :
    Outcome C (Replica C) :=
  kickLeaves w (ord.list .tree r.rs.tree.keys) r

end ZkStf
