import Grove.Forest.Chain

/-!
# `Grove.Forest.Kin` — children and siblings

A node's children stand in a list, and three kinds of question are asked of it: by position, by name, and by
the parent link of a node that stands in it.
-/

namespace Grove.Forest

variable {α : Type}

/-! ## Children -/

/-- The names of `n`'s children from left to right. -/
def children (F : Forest α) (n : NodeId) : Except Failure (List NodeId) :=
  return (← F.linked n).children

def childCount (F : Forest α) (n : NodeId) : Except Failure Nat :=
  return (← F.children n).length

def isLeaf (F : Forest α) (n : NodeId) : Except Failure Bool :=
  return (← F.children n).isEmpty

/-- The child of `n` at `index`. -/
def child (F : Forest α) (n : NodeId) (index : Nat) : Except Failure NodeId := do
  let children ← F.children n
  match children[index]? with
  | some c => return c
  | none => .error (.tree (.outOfRange index children.length))

/-- The position of `c` among `n`'s children. -/
def indexOf (F : Forest α) (n c : NodeId) : Except Failure (Option Nat) :=
  return (← F.children n).findIdx? (· == c)

/-- Whether `n` is the parent of `other`. -/
def isChild (F : Forest α) (n : NodeId) (other : Option NodeId) : Except Failure Bool :=
  match F.resolve other with
  | none => .ok false
  | some c => return (← F.parent c) = some n

def firstChild (F : Forest α) (n : NodeId) : Except Failure NodeId := do
  match (← F.children n).head? with
  | some c => return c
  | none => .error (.tree (.emptyCollection n))

def lastChild (F : Forest α) (n : NodeId) : Except Failure NodeId := do
  match (← F.children n).getLast? with
  | some c => return c
  | none => .error (.tree (.emptyCollection n))

/-- The child of `n` that follows `c`; `none` if `c` is the last. -/
def childAfter (F : Forest α) (n c : NodeId) : Except Failure (Option NodeId) := do
  match ← F.indexOf n c with
  | none => .error (.tree (.notAChild n c))
  | some index => return (← F.children n)[index + 1]?

/-- The child of `n` before `c`; `none` if `c` is the first. -/
def childBefore (F : Forest α) (n c : NodeId) : Except Failure (Option NodeId) := do
  match ← F.indexOf n c with
  | none => .error (.tree (.notAChild n c))
  | some 0 => return none
  | some (index + 1) =>
    match (← F.children n)[index]? with
    | some b => return some b
    | none => .error (.breach (.misplacedIndex n index))

/-! ## Siblings -/

/-- Whether `n` and `other` have the same parent. A node, also a root, is its own sibling. -/
def isSibling (F : Forest α) (n : NodeId) (other : Option NodeId) : Except Failure Bool :=
  match F.resolve other with
  | none => .ok false
  | some m =>
    if m = n then
      .ok true
    else do
      match ← F.parent n with
      | none => return false
      | some p =>
        if (← F.parent m) = some p then
          match ← F.indexOf p m with
          | some _ => return true
          | none => .error (.breach (.unlistedChild p m))
        else
          return false

/-- The number of `n`'s siblings, `n` included. -/
def siblingCount (F : Forest α) (n : NodeId) : Except Failure Nat := do
  match ← F.parent n with
  | none => return 1
  | some p => F.childCount p

/-- The parent of `n`, and `n`'s position there. -/
def position (F : Forest α) (n : NodeId) : Except Failure (Option (NodeId × Nat)) := do
  match ← F.parent n with
  | none => return none
  | some p =>
    match ← F.indexOf p n with
    | some index => return some (p, index)
    | none => .error (.breach (.unlistedChild p n))

def nextSibling (F : Forest α) (n : NodeId) : Except Failure (Option NodeId) := do
  match ← F.position n with
  | none => return none
  | some (p, index) => return (← F.children p)[index + 1]?

def previousSibling (F : Forest α) (n : NodeId) : Except Failure (Option NodeId) := do
  match ← F.position n with
  | none => return none
  | some (_, 0) => return none
  | some (p, index + 1) => return (← F.children p)[index]?

end Grove.Forest
