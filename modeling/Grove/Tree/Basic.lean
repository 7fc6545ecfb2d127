import Grove.Forest.Basic

/-!
# `Grove.Tree.Basic` — ordered trees as values

A `Tree` is a value with its subtrees from left to right. It is what one sees of a node in a forest when names,
slots and generations are left out: `Forest.subtree` reads it off along the child links.
-/

namespace Grove

/-- A value, and the subtrees below it from left to right. -/
inductive Tree (α : Type) where
  | node (value : α) (children : List (Tree α))

namespace Tree

variable {α : Type}

/-- The value at the top. -/
def value : Tree α → α
  | node v _ => v

/-- The subtrees right below the top. -/
def children : Tree α → List (Tree α)
  | node _ ts => ts

end Tree

namespace Forest

variable {α : Type}

/-- The tree of values below `n`, at most `fuel` levels of it. -/
def subtreeWithin (F : Forest α) : Nat → NodeId → Except Failure (Tree α)
  | 0, n => .error (.breach (.endlessChain n))
  | fuel + 1, n => do
    let node ← F.linked n
    return .node node.value (← node.children.mapM (F.subtreeWithin fuel))

/-- The tree of values below `n`. A forest has no more levels than nodes. -/
def subtree (F : Forest α) (n : NodeId) : Except Failure (Tree α) :=
  F.subtreeWithin F.size n

end Forest

end Grove
