/-!
# `Grove.NodeId` — stable names of nodes

A node is named by the arena slot it lives in and the arena generation at which it was put there. A slot is
used again after its node is gone, but never under the same generation, so an old name cannot come to mean a
new node.

Names are ordered by slot, then by generation.
-/

namespace Grove

/-- The name of a node: an arena slot, and the arena generation at which the node was put there. -/
structure NodeId where
  slot : Nat
  generation : Nat
deriving DecidableEq, Repr, Inhabited

namespace NodeId

/-- By slot first, then by generation. -/
def compare (a b : NodeId) : Ordering :=
  (Ord.compare a.slot b.slot).then (Ord.compare a.generation b.generation)

instance : Ord NodeId := ⟨NodeId.compare⟩

/-- The written form `#slot@generation`. -/
def text (id : NodeId) : String :=
  s!"#{id.slot}@{id.generation}"

instance : ToString NodeId := ⟨NodeId.text⟩

/-- The long form of a node view, for diagnostics. -/
def viewText (id : NodeId) : String :=
  "NodeRef(NodeId(Index \x7b index: " ++ toString id.slot ++ ", generation: " ++ toString id.generation
    ++ " \x7d))"

end NodeId

end Grove
