import Grove.NodeId

/-!
# `Grove.Failure` — why an operation on a forest ends without an answer

Two kinds of failure are kept apart. A `TreeError` is an answer to the caller: the request does not fit the
forest as it is. A `Breach` means that something the code relies on is not so; the run ends there. All but three
breaches say that the links of a forest contradict each other, which no sequence of edits brings about. The other
three have a cause outside: a walker borrowed for a forest it does not belong to (`walkFailed`), a line too
deeply indented to be written (`paddingTooWide`), and a setting of the environment for a position that is not in
its list and to which the list cannot grow (`outOfReach`).
-/

namespace Grove

/-- An operation refused. -/
inductive TreeError where
  /-- Placing `child` under `parent` would make a node its own ancestor. -/
  | cycleDetected (parent child : NodeId)
  | notAChild (parent child : NodeId)
  | notAnAncestor (ancestor descendant : NodeId)
  | outOfRange (index len : Nat)
  /-- The first or last child of a leaf was asked for. -/
  | emptyCollection (node : NodeId)
  | nodeNotFound (node : NodeId)
  /-- A walker made at generation `expected` met the forest at generation `found`. -/
  | staleIterator (expected found : UInt64)
deriving DecidableEq, Repr

namespace TreeError

/-- Whether the caller passed a node that does not fit the requested relation. -/
def isInvalidArgument : TreeError → Bool
  | cycleDetected .. | notAChild .. | notAnAncestor .. => true
  | _ => false

/-- The error in words. -/
def message : TreeError → String
  | cycleDetected parent child => s!"node {child} is an ancestor of {parent}: insert would create a cycle"
  | notAChild parent child => s!"node {child} is not a child of {parent}"
  | notAnAncestor ancestor descendant => s!"node {ancestor} is not an ancestor of {descendant}"
  | outOfRange index len => s!"index {index} out of range for {len} children"
  | emptyCollection node => s!"node {node} has no children"
  | nodeNotFound node => s!"node not found: {node}"
  | staleIterator expected found =>
    s!"stale iterator: forest changed from generation {expected} to {found}"

end TreeError

/-- A broken assumption: the run ends where it is met. -/
inductive Breach where
  /-- A parent or child link names a node that is gone. -/
  | danglingLink (node : NodeId)
  /-- A node names a parent that does not list it. -/
  | unlistedChild (parent child : NodeId)
  /-- A node has a parent without children. -/
  | childlessParent (parent : NodeId)
  /-- A position that was checked lies outside the child list. -/
  | misplacedIndex (parent : NodeId) (index : Nat)
  /-- A chain of links is longer than there are nodes. -/
  | endlessChain (node : NodeId)
  /-- Two nodes on one level reached the top of their trees at different times. -/
  | unequalTops (a b : NodeId)
  /-- The buffer for a path is shorter than the path. -/
  | shortPath (node : NodeId)
  /-- Levels are to be counted from one down to another that lies above it: the last node in breadth-first order
      lies above the first, or the deeper of two nodes above the other. -/
  | risingDepth (node : NodeId)
  /-- A subtree without leaves. -/
  | noLeaves (node : NodeId)
  /-- A walk yields more nodes than the forest can hold. -/
  | endlessWalk
  /-- A walker failed over the forest that was borrowed for it. -/
  | walkFailed (error : TreeError)
  /-- A line is to be indented by more columns than can be written. -/
  | paddingTooWide (columns : Nat)
  /-- The environment gives a setting at this place, which cannot be reached. -/
  | outOfReach (place : String)
deriving DecidableEq, Repr

/-- Why an operation ended without an answer. -/
inductive Failure where
  | tree (error : TreeError)
  | breach (breach : Breach)
deriving DecidableEq, Repr

namespace Breach

/-- What is told about a breach beyond that it happened. -/
def message? : Breach → Option String
  | walkFailed error => some ("walk over a borrowed forest failed: " ++ error.message)
  | _ => none

end Breach

end Grove
