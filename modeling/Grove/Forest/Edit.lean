import Grove.Forest.Basic
import Grove.Forest.Chain

/-!
# `Grove.Forest.Edit` — the operations that write

Nodes are made without links (`create`), placed under a parent (`insert`, `add`), taken from it (`removeAt`,
`removeChild`, `removeAll`, `detach`) and given up with all that hangs from them (`discard`). Parent links and
child lists are written here and nowhere else. Every check comes before the first write, so an operation that is
refused leaves the forest as it was.
-/

namespace Grove.Forest

variable {α : Type}

open Edit

/-! ## Nodes and values -/

/-- Make a node without parent and children. -/
def create (value : α) : Edit α NodeId := fun F =>
  let (n, nodes) := F.nodes.insert ⟨value, none, []⟩
  .ok n { F with nodes }

/-- Replace a node's value and answer with the one before. Values are no part of the structure, so the
    generation stays. -/
def setValue (n : NodeId) (value : α) : Edit α α := do
  let node ← read (·.lookup n)
  update n fun node => { node with value }
  return node.value

/-- Change a node's value in place and answer with the new one. -/
def modifyValue (n : NodeId) (f : α → α) : Edit α α := do
  let node ← read (·.lookup n)
  update n fun node => { node with value := f node.value }
  return f node.value

/-! ## Placing -/

/-- How many children `parent` has besides `child`: the last position at which `child` may be placed there. -/
def room (parent : NodeId) (target moved : Node α) : Except Failure Nat :=
  if moved.parent = some parent then
    match target.children.length with
    | 0 => .error (.breach (.childlessParent parent))
    | others + 1 => .ok others
  else
    .ok target.children.length

/-- Strike `child` from the list of its parent `parent`. -/
def strike (parent child : NodeId) : Edit α Unit := do
  let node ← read (·.linked parent)
  match node.children.findIdx? (· == child) with
  | some index => update parent fun node => { node with children := node.children.eraseIdx index }
  | none => throw (.breach (.unlistedChild parent child))

/-- List `child` among `parent`'s children at `index`. -/
def enlist (parent : NodeId) (index : Nat) (child : NodeId) : Edit α Unit := do
  let node ← read (·.linked parent)
  if node.children.length < index then
    throw (.breach (.misplacedIndex parent index))
  update parent fun node => { node with children := node.children.insertIdx index child }

/-- Place `child` under `parent` at `index`, taking it from the parent it has, if any. The index is one among
    the children other than `child`. -/
def insert (parent : NodeId) (index : Nat) (child : NodeId) : Edit α Unit := do
  let target ← read (·.lookup parent)
  let moved ← read (·.lookup child)
  if ← read (·.reaches parent child) then
    throw (.tree (.cycleDetected parent child))
  let len ← read fun _ => room parent target moved
  if len < index then
    throw (.tree (.outOfRange index len))
  if let some old := moved.parent then
    strike old child
  enlist parent index child
  update child fun node => { node with parent := some parent }
  bump

/-- Place `child` under `parent` as its last child. A node that is a child already moves to the end. -/
def add (parent child : NodeId) : Edit α Unit := do
  let target ← read (·.lookup parent)
  let moved ← read (·.lookup child)
  let len ← read fun _ => room parent target moved
  insert parent len child

/-! ## Taking away -/

/-- Take the child at `index` from `parent`; it becomes a root and keeps what hangs from it. -/
def removeAt (parent : NodeId) (index : Nat) : Edit α NodeId := do
  let node ← read (·.lookup parent)
  match node.children[index]? with
  | none => throw (.tree (.outOfRange index node.children.length))
  | some child =>
    update parent fun node => { node with children := node.children.eraseIdx index }
    update child fun node => { node with parent := none }
    bump
    return child

/-- Take `child` from `parent`. -/
def removeChild (parent child : NodeId) : Edit α Unit := do
  let _ ← read (·.lookup child)
  let node ← read (·.lookup parent)
  match node.children.findIdx? (· == child) with
  | none => throw (.tree (.notAChild parent child))
  | some index => let _ ← removeAt parent index

/-- Take the first `count` children from `parent`, the last of them first, and put their names before `taken`. -/
def removeFirst (parent : NodeId) : Nat → List NodeId → Edit α (List NodeId)
  | 0, taken => return taken
  | count + 1, taken => do
    let child ← removeAt parent count
    removeFirst parent count (child :: taken)

/-- Take all children from `parent`, the last one first, and answer with their names from left to right. -/
def removeAll (parent : NodeId) : Edit α (List NodeId) := do
  let node ← read (·.lookup parent)
  removeFirst parent node.children.length []

/-- Take `n` from its parent; nothing happens to a root. -/
def detach (n : NodeId) : Edit α Unit := do
  let node ← read (·.lookup n)
  if let some parent := node.parent then
    removeChild parent n

/-! ## Giving up -/

/-- Give up the node named `n` and answer with what it was; `none` if it is gone already. -/
def release (n : NodeId) : Edit α (Option (Node α)) := fun F =>
  match F.nodes.erase n with
  | some (node, nodes) => .ok (some node) { F with nodes }
  | none => .ok none F

/-- Give up the nodes on the stack and all below them, the last child of each first, counting on from
    `released`. At most `fuel` names are taken from the stack. -/
def releaseAll : Nat → List NodeId → Nat → Edit α Nat
  | _, [], released => return released
  | 0, n :: _, _ => throw (.breach (.endlessChain n))
  | fuel + 1, n :: stack, released => do
    match ← release n with
    | some node => releaseAll fuel (node.children.reverse ++ stack) (released + 1)
    | none => releaseAll fuel stack released

/-- Take `n` from its parent and give it up with its whole subtree; answers with the number of nodes gone.
    Their names are stale from then on. -/
def discard (n : NodeId) : Edit α Nat := do
  detach n
  let fuel ← read fun F => .ok F.size
  let released ← releaseAll fuel [n] 0
  bump
  return released

end Grove.Forest
