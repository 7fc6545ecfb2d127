import Grove.Forest.Basic

/-!
# `Grove.Forest.Chain` — upwards

From a node the parent links lead to the root of its tree. Here are the questions that are answered by climbing:
root, level and path of a node, ancestry of two nodes, and the nearest ancestor two nodes share.

A chain of parents has at most as many nodes as the forest, so each climb is allowed that many; one that is not
over by then runs in a circle, which is a breach.
-/

namespace Grove.Forest

variable {α : Type}

/-! ## One node -/

/-- The parent of `n`; `none` for a root. -/
def parent (F : Forest α) (n : NodeId) : Except Failure (Option NodeId) :=
  return (← F.linked n).parent

def isRoot (F : Forest α) (n : NodeId) : Except Failure Bool :=
  return (← F.parent n).isNone

/-- Climb from `n` until there is no parent. -/
def topFrom (F : Forest α) : Nat → NodeId → Except Failure NodeId
  | 0, n => .error (.breach (.endlessChain n))
  | fuel + 1, n => do
    match ← F.parent n with
    | none => return n
    | some p => F.topFrom fuel p

/-- The root of the tree that `n` belongs to. -/
def root (F : Forest α) (n : NodeId) : Except Failure NodeId :=
  F.topFrom F.size n

/-- The number of hops from `n` to its root, added to `hops`. -/
def hopsFrom (F : Forest α) : Nat → Nat → NodeId → Except Failure Nat
  | 0, _, n => .error (.breach (.endlessChain n))
  | fuel + 1, hops, n => do
    match ← F.parent n with
    | none => return hops
    | some p => F.hopsFrom fuel (hops + 1) p

/-- The number of parents above `n`; a root is on level 0. -/
def level (F : Forest α) (n : NodeId) : Except Failure Nat :=
  F.hopsFrom F.size 0 n

/-- The number of levels from `top` down to `bottom`, asked of the node `n`. -/
def descent (n : NodeId) (top bottom : Nat) : Except Failure Nat :=
  if bottom < top then
    .error (.breach (.risingDepth n))
  else
    .ok (bottom - top)

theorem descent_of_le (n : NodeId) {top bottom : Nat} (h : top ≤ bottom) :
    descent n top bottom = .ok (bottom - top) :=
  if_neg (Nat.not_lt.2 h)

/-- The path down to `start`, filled from the bottom while climbing: `below` nodes of it lie below `n`. The
    buffer is made at the top, where its length is known. -/
def pathInto (F : Forest α) (start : NodeId) : Nat → Option NodeId → Nat → Except Failure (Array NodeId)
  | _, none, below => return Array.replicate below start
  | 0, some n, _ => .error (.breach (.endlessChain n))
  | fuel + 1, some n, below => do
    let path ← F.pathInto start fuel (← F.parent n) (below + 1)
    if below < path.size then
      return path.setIfInBounds (path.size - below - 1) n
    else
      .error (.breach (.shortPath start))

/-- The nodes from the root down to `n`, both included. -/
def path (F : Forest α) (n : NodeId) : Except Failure (List NodeId) :=
  return (← F.pathInto n F.size (some n) 0).toList

/-! ## Two nodes -/

/-- Whether `target` is met when climbing from `n`, `n` included. -/
def meets (F : Forest α) (target : NodeId) : Nat → NodeId → Except Failure Bool
  | 0, n => .error (.breach (.endlessChain n))
  | fuel + 1, n =>
    if n = target then
      .ok true
    else do
      match ← F.parent n with
      | none => return false
      | some p => F.meets target fuel p

/-- Whether `target` is `n` or one of its ancestors. -/
def reaches (F : Forest α) (n target : NodeId) : Except Failure Bool :=
  F.meets target F.size n

/-- Whether `n` is `other` or one of its ancestors. An absent or stale node has no ancestors. -/
def isAncestorOf (F : Forest α) (n : NodeId) (other : Option NodeId) : Except Failure Bool :=
  match F.resolve other with
  | none => .ok false
  | some below => F.reaches below n

/-- Whether `other` is `n` or one of its ancestors. -/
def isDescendantOf (F : Forest α) (n : NodeId) (other : Option NodeId) : Except Failure Bool :=
  match F.resolve other with
  | none => .ok false
  | some above => F.isAncestorOf above (some n)

/-- Whether `n` and `other` belong to one tree. -/
def isRelated (F : Forest α) (n : NodeId) (other : Option NodeId) : Except Failure Bool :=
  match F.resolve other with
  | none => .ok false
  | some m => return (← F.root m) = (← F.root n)

/-- The node `hops` parents above `n`, if the chain is that long. -/
def climb (F : Forest α) : Nat → NodeId → Except Failure (Option NodeId)
  | 0, n => return some n
  | hops + 1, n => do
    match ← F.parent n with
    | none => return none
    | some p => F.climb hops p

/-- Climb from two nodes on one level, hop by hop, until both are at the same node or at the top. -/
def joint (F : Forest α) : Nat → NodeId → NodeId → Except Failure (Option NodeId)
  | 0, a, _ => .error (.breach (.endlessChain a))
  | fuel + 1, a, b =>
    if a = b then
      .ok (some a)
    else do
      match ← F.parent a, ← F.parent b with
      | some p, some q => F.joint fuel p q
      | none, none => return none
      | _, _ => .error (.breach (.unequalTops a b))

/-- The nearest node that is an ancestor of both, `none` for nodes of different trees. The deeper node first
    climbs to the level of the other. -/
def sharedAncestor (F : Forest α) (n : NodeId) (other : Option NodeId) : Except Failure (Option NodeId) :=
  match F.resolve other with
  | none => .ok none
  | some m =>
    if m = n then
      .ok (some m)
    else do
      let i ← F.level n
      let j ← F.level m
      let (deeper, shallower, top, bottom) := if i < j then (m, n, i, j) else (n, m, j, i)
      match ← F.climb (← descent deeper top bottom) deeper with
      | none => return none
      | some a => F.joint F.size a shallower

end Grove.Forest
