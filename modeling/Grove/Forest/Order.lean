import Grove.Forest.Kin
import Grove.Walker

/-!
# `Grove.Forest.Order` — leaves, depth and neighbours

Questions whose answers depend on the order in which a tree is read: the outermost leaves of a subtree and their
neighbours, the depth of a subtree and the number of its leaves, and the nodes before and after a node in
preorder. None of them walks the whole tree to find a neighbour: they climb and descend along links.
-/

namespace Grove.Forest

variable {α : Type}

/-! ## Descending -/

/-- Descend from `n` along first children. -/
def firstLeafFrom (F : Forest α) : Nat → NodeId → Except Failure NodeId
  | 0, n => .error (.breach (.endlessChain n))
  | fuel + 1, n => do
    match (← F.children n).head? with
    | none => return n
    | some c => F.firstLeafFrom fuel c

/-- The leftmost leaf of the subtree of `n`; a leaf is its own. -/
def firstLeaf (F : Forest α) (n : NodeId) : Except Failure NodeId :=
  F.firstLeafFrom F.size n

/-- Descend from `n` along last children. -/
def lastLeafFrom (F : Forest α) : Nat → NodeId → Except Failure NodeId
  | 0, n => .error (.breach (.endlessChain n))
  | fuel + 1, n => do
    match (← F.children n).getLast? with
    | none => return n
    | some c => F.lastLeafFrom fuel c

/-- The rightmost leaf of the subtree of `n`; a leaf is its own. -/
def lastLeaf (F : Forest α) (n : NodeId) : Except Failure NodeId :=
  F.lastLeafFrom F.size n

/-- The longest way down from `n` to a leaf. Breadth-first order never goes back up a level, so the node it
    visits last is on the deepest one. -/
def depth (F : Forest α) (n : NodeId) : Except Failure Nat := do
  let last := (← F.breadthFirst n).getLast?.getD n
  let bottom ← F.level last
  let top ← F.level n
  descent n top bottom

/-- How many of the nodes listed are leaves. -/
def leavesAmong (F : Forest α) : List NodeId → Except Failure Nat
  | [] => return 0
  | n :: rest => do
    let isLeaf ← F.isLeaf n
    let leaves ← F.leavesAmong rest
    return if isLeaf then leaves + 1 else leaves

/-- The number of leaves in the subtree of `n`; 1 for a leaf. -/
def leafCount (F : Forest α) (n : NodeId) : Except Failure Nat := do
  match ← F.leavesAmong (← F.breadthFirst n) with
  | 0 => .error (.breach (.noLeaves n))
  | leaves + 1 => return leaves + 1

/-! ## Neighbouring leaves -/

/-- Climb from `n` until there is a sibling on the right, and descend into it. -/
def nextLeafFrom (F : Forest α) : Nat → NodeId → Except Failure (Option NodeId)
  | 0, n => .error (.breach (.endlessChain n))
  | fuel + 1, n => do
    match ← F.parent n with
    | none => return none
    | some p =>
      match ← F.nextSibling n with
      | some s => return some (← F.firstLeaf s)
      | none => F.nextLeafFrom fuel p

/-- The first leaf after the whole subtree of `n`, within its tree. -/
def nextLeaf (F : Forest α) (n : NodeId) : Except Failure (Option NodeId) :=
  F.nextLeafFrom F.size n

/-- Climb from `n` until there is a sibling on the left, and descend into it. -/
def previousLeafFrom (F : Forest α) : Nat → NodeId → Except Failure (Option NodeId)
  | 0, n => .error (.breach (.endlessChain n))
  | fuel + 1, n => do
    match ← F.parent n with
    | none => return none
    | some p =>
      match ← F.previousSibling n with
      | some s => return some (← F.lastLeaf s)
      | none => F.previousLeafFrom fuel p

/-- The last leaf before `n`, within its tree. -/
def previousLeaf (F : Forest α) (n : NodeId) : Except Failure (Option NodeId) :=
  F.previousLeafFrom F.size n

/-! ## Neighbours in preorder -/

/-- Climb from `n` until there is a sibling on the right. -/
def nextNodeFrom (F : Forest α) : Nat → NodeId → Except Failure (Option NodeId)
  | 0, n => .error (.breach (.endlessChain n))
  | fuel + 1, n => do
    match ← F.nextSibling n with
    | some s => return some s
    | none =>
      match ← F.parent n with
      | none => return none
      | some p => F.nextNodeFrom fuel p

/-- The node after `n` when its tree is read in preorder. -/
def nextNode (F : Forest α) (n : NodeId) : Except Failure (Option NodeId) := do
  match (← F.children n).head? with
  | some c => return some c
  | none => F.nextNodeFrom F.size n

/-- The node before `n` when its tree is read in preorder. -/
def previousNode (F : Forest α) (n : NodeId) : Except Failure (Option NodeId) := do
  match ← F.parent n with
  | none => return none
  | some p =>
    match ← F.previousSibling n with
    | some s => return some (← F.lastLeaf s)
    | none => return some p

end Grove.Forest
