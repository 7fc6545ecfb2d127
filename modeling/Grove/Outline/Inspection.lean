import Grove.Forest.Order
import Grove.Outline.Reader

/-!
# `Grove.Outline.Inspection` — looking at an outline forest

Lookups by value, listings, statistics and renderings. All of them go through the entries of the roots list that
are alive, in order; an entry need not be a root of the forest, and may occur twice.
-/

namespace Grove

/-- The order in which a listing goes through a tree. -/
inductive TraversalOrder where
  | preorder
  | postorder
  | breadthFirst
deriving DecidableEq, Repr

/-- The shape of one tree in numbers. -/
structure TreeStats where
  root : String
  nodes : Nat
  depth : Nat
  leaves : Nat
deriving DecidableEq, Repr

namespace Forest

variable {α : Type}

/-- The value of a node found in a walk. -/
def valueAt (F : Forest α) (n : NodeId) : Except Failure α :=
  return (← F.linked n).value

/-- The subtree of `n` in the given order. -/
def listing (F : Forest α) : TraversalOrder → NodeId → Except Failure (List NodeId)
  | .preorder, n => F.preorder n
  | .postorder, n => F.postorder n
  | .breadthFirst, n => F.breadthFirst n

/-- The first of the nodes listed that has the given value. -/
def firstValued [DecidableEq α] (F : Forest α) (value : α) : List NodeId → Except Failure (Option NodeId)
  | [] => return none
  | n :: rest => do
    if (← F.valueAt n) = value then
      return some n
    else
      F.firstValued value rest

end Forest

namespace OutlineForest

/-- The roots that are alive. -/
def entries (O : OutlineForest) : List NodeId :=
  O.roots.filter O.forest.contains

/-! ## Lookups -/

/-- The first node with the given value in the trees below `entries`, each read in preorder. -/
def firstBelow (O : OutlineForest) (value : String) : List NodeId → Except Failure (Option NodeId)
  | [] => return none
  | entry :: rest => do
    match ← O.forest.firstValued value (← O.forest.preorder entry) with
    | some n => return some n
    | none => O.firstBelow value rest

/-- The first node with the given value. -/
def find (O : OutlineForest) (value : String) : Except Problem NodeId :=
  match O.firstBelow value O.entries with
  | .error failure => .error (.ofFailure failure)
  | .ok none => .error (.valueNotFound value)
  | .ok (some n) => .ok n

/-- The values from the first node valued `start` down to the first node valued `stop`. -/
def pathValues (O : OutlineForest) (start stop : String) : Except Problem (List String) := do
  let ancestor ← O.find start
  let descendant ← O.find stop
  let values : Except Failure (List String) := do
    let _ ← O.forest.lookup descendant
    (← O.forest.pathFrom descendant ancestor).mapM O.forest.valueAt
  values.mapError .ofFailure

/-! ## Listings and statistics -/

/-- The values of each tree in the given order. -/
def walk (O : OutlineForest) (order : TraversalOrder) : Except Failure (List (List String)) :=
  O.entries.mapM fun entry => do
    (← O.forest.listing order entry).mapM O.forest.valueAt

/-- The statistics of the tree below one entry. -/
def statsOf (O : OutlineForest) (entry : NodeId) : Except Failure TreeStats := do
  return {
    root := ← O.forest.valueAt entry
    nodes := (← O.forest.preorder entry).length
    depth := ← O.forest.depth entry
    leaves := ← O.forest.leafCount entry }

/-- The statistics of each tree. -/
def stats (O : OutlineForest) : Except Failure (List TreeStats) :=
  O.entries.mapM O.statsOf

/-! ## Renderings -/

/-- The outlines of all trees, one after the other. -/
def outline (O : OutlineForest) (style : OutlineStyle) : Except Failure String :=
  return String.join (← O.entries.mapM (O.forest.outline style))

/-- The box drawings of all trees, one after the other. -/
def box (O : OutlineForest) : Except Failure String :=
  return String.join (← O.entries.mapM O.forest.box)

end OutlineForest

end Grove
