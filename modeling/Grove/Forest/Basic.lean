import Grove.Arena
import Grove.Failure

/-!
# `Grove.Forest.Basic` — trees in one arena

A forest owns the nodes of any number of ordered trees. A node carries a value, the name of its parent (none for
a root) and the names of its children from left to right. The forest counts structural writes: its generation
moves on whenever a parent or child link changes, and it is by this number that a walker notices a change.

## Contents
- `Forest.lookup` resolves a name given by a caller, `Forest.linked` one found in a link. The first may be
  stale, which is an error of the caller's; the second may not, so that a failure there is a breach.
- `Forest.Edit` is the type of the writing operations. An edit that fails hands back the forest as it stood
  then; that this is the forest it was given is a property of each operation and not built in here.
-/

namespace Grove

/-- A node: its value, its parent's name and its children's names from left to right. -/
structure Node (α : Type) where
  value : α
  parent : Option NodeId
  children : List NodeId

/-- Nodes linked into trees, and a counter of structural writes that wraps at 64 bits. -/
structure Forest (α : Type) where
  nodes : Arena (Node α)
  generation : UInt64

namespace Forest

variable {α β : Type}

/-- A forest without nodes. -/
def empty : Forest α where
  nodes := .empty
  generation := 0

instance : Inhabited (Forest α) := ⟨empty⟩

/-! ## Reading -/

/-- The number of nodes in all trees. -/
def size (F : Forest α) : Nat :=
  F.nodes.size

def isEmpty (F : Forest α) : Bool :=
  F.size == 0

/-- The node named `n`, if it is still there. -/
def get? (F : Forest α) (n : NodeId) : Option (Node α) :=
  F.nodes.get? n

def contains (F : Forest α) (n : NodeId) : Bool :=
  F.nodes.contains n

/-- The name itself, if its node is still there; a name that is absent or stale counts as no name. -/
def resolve (F : Forest α) (n : Option NodeId) : Option NodeId :=
  n.filter F.contains

/-- The nodes without a parent, in slot order. -/
def roots (F : Forest α) : List NodeId :=
  F.nodes.entries.filterMap fun (n, node) => if node.parent.isNone then some n else none

/-- The node behind a name that a caller gave. -/
def lookup (F : Forest α) (n : NodeId) : Except Failure (Node α) :=
  match F.get? n with
  | some node => .ok node
  | none => .error (.tree (.nodeNotFound n))

/-- The node behind a name that was found in a link. -/
def linked (F : Forest α) (n : NodeId) : Except Failure (Node α) :=
  match F.get? n with
  | some node => .ok node
  | none => .error (.breach (.danglingLink n))

theorem lookup_eq_ok_iff {F : Forest α} {n : NodeId} {node : Node α} :
    F.lookup n = .ok node ↔ F.get? n = some node := by
  unfold lookup
  split <;> simp [*]

theorem linked_eq_ok_iff {F : Forest α} {n : NodeId} {node : Node α} :
    F.linked n = .ok node ↔ F.get? n = some node := by
  unfold linked
  split <;> simp [*]

/-- A name is not found exactly if no node is there. -/
theorem lookup_eq_error_iff {F : Forest α} {n : NodeId} {failure : Failure} :
    F.lookup n = .error failure ↔ F.get? n = none ∧ failure = .tree (.nodeNotFound n) := by
  unfold lookup
  split <;> simp [*, eq_comm]

theorem contains_iff {F : Forest α} {n : NodeId} : F.contains n = true ↔ ∃ node, F.get? n = some node :=
  Arena.contains_iff

/-- The value behind a name that a caller gave. -/
def value (F : Forest α) (n : NodeId) : Except Failure α :=
  return (← F.lookup n).value

/-! ## Edits -/

/-- An operation that may write: it ends with an answer or a failure, and with a forest in either case. -/
abbrev Edit (α : Type) := EStateM Failure (Forest α)

namespace Edit

/-- Ask the forest without changing it. -/
def read (question : Forest α → Except Failure β) : Edit α β := fun F =>
  match question F with
  | .ok answer => .ok answer F
  | .error failure => .error failure F

/-- Change the node behind a link. -/
def update (n : NodeId) (f : Node α → Node α) : Edit α Unit := fun F =>
  match F.get? n with
  | some _ => .ok () { F with nodes := F.nodes.modify n f }
  | none => .error (.breach (.danglingLink n)) F

/-- Count a structural write. -/
def bump : Edit α Unit := fun F =>
  .ok () { F with generation := F.generation + 1 }

/-- A question leaves the forest as it is, whatever the answer. -/
theorem read_of_ok {question : Forest α → Except Failure β} {F : Forest α} {answer : β}
    (h : question F = .ok answer) : read question F = .ok answer F := by
  simp [read, h]

theorem read_of_error {question : Forest α → Except Failure β} {F : Forest α} {failure : Failure}
    (h : question F = .error failure) : read question F = .error failure F := by
  simp [read, h]

end Edit

end Forest

end Grove
