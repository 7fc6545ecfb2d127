import Grove.Forest.Chain

/-!
# `Grove.Walker` — traversals that can be interrupted

A walker visits the nodes of a subtree, or of a path, one step at a time. It holds names and positions only, no
part of the forest, so it can be kept while the forest is edited. It remembers the generation it was made at;
at any other generation it refuses to go on, since the shape it was walking may be gone.

A walker may be stepped over a forest it was not made on. Nothing bad comes of it: a name that does not resolve
there is an error, and what the step used up before it failed is part of the definition.

## Contents
- `Course` is what is left to visit, one constructor per order; `Course.next` is one step.
- `Walker` adds the generation; `Walker.next` is a checked step, `Walker.collect` takes all steps, and
  `Walker.borrow` takes them over a forest that is held still meanwhile.
-/

namespace Grove

/-- A node, and the position of the next of its children. -/
structure Cursor where
  node : NodeId
  next : Nat
deriving DecidableEq, Repr

/-- What a walker has still to visit. -/
inductive Course where
  /-- Nodes before their children: the first node while it is unvisited, and a stack of cursors. -/
  | preorder (start : Option NodeId) (stack : List Cursor)
  /-- Nodes after their children: a stack of cursors whose nodes are unvisited. -/
  | postorder (stack : List Cursor)
  /-- Level by level: the first node while it is unvisited, and a queue of cursors. -/
  | breadthFirst (start : Option NodeId) (queue : List Cursor)
  /-- Down a path: the nodes that are left. -/
  | path (rest : List NodeId)
deriving DecidableEq, Repr

namespace Course

variable {α : Type}

/-! ## One step

A step yields a node, or nothing at the end, or fails; it leaves a course in each case. -/

/-- What a step yields, and what is left. -/
abbrev Step (σ : Type) := Except Failure (Option NodeId) × σ

/-- Whether `n` has children, the question on which a cursor for it depends. -/
def branches (F : Forest α) (n : NodeId) : Except Failure Bool :=
  return !(← F.lookup n).children.isEmpty

/-- Yield the first node, and prepare a cursor for it if it has children. It is used up even if it does not
    resolve. -/
def begin (F : Forest α) (n : NodeId) : Step (List Cursor) :=
  match branches F n with
  | .error failure => (.error failure, [])
  | .ok true => (.ok (some n), [⟨n, 0⟩])
  | .ok false => (.ok (some n), [])

/-- A step of a stack of cursors. Cursors that have run out are dropped; the first that has not yields its next
    child, and a cursor for that child goes on top if it has children. -/
def preorderNext (F : Forest α) : List Cursor → Step (List Cursor)
  | [] => (.ok none, [])
  | top :: rest =>
    match F.lookup top.node with
    | .error failure => (.error failure, top :: rest)
    | .ok node =>
      match node.children[top.next]? with
      | none => preorderNext F rest
      | some child =>
        let stack := { top with next := top.next + 1 } :: rest
        match branches F child with
        | .error failure => (.error failure, stack)
        | .ok true => (.ok (some child), ⟨child, 0⟩ :: stack)
        | .ok false => (.ok (some child), stack)

/-- A step of a queue of cursors, as for a stack, but the cursor for the child goes to the end. -/
def breadthFirstNext (F : Forest α) : List Cursor → Step (List Cursor)
  | [] => (.ok none, [])
  | front :: rest =>
    match F.lookup front.node with
    | .error failure => (.error failure, front :: rest)
    | .ok node =>
      match node.children[front.next]? with
      | none => breadthFirstNext F rest
      | some child =>
        let queue := { front with next := front.next + 1 } :: rest
        match branches F child with
        | .error failure => (.error failure, queue)
        | .ok true => (.ok (some child), queue ++ [⟨child, 0⟩])
        | .ok false => (.ok (some child), queue)

/-- A step of a stack of cursors that yields a node when its cursor runs out. Until then it goes down to the
    next child, at most `fuel` times; a forest has no longer way down than it has nodes. -/
def postorderNext (F : Forest α) : Nat → List Cursor → Step (List Cursor)
  | _, [] => (.ok none, [])
  | fuel, top :: rest =>
    match F.lookup top.node with
    | .error failure => (.error failure, top :: rest)
    | .ok node =>
      match node.children[top.next]? with
      | none => (.ok (some top.node), rest)
      | some child =>
        match fuel with
        | 0 => (.error (.breach (.endlessChain top.node)), top :: rest)
        | fuel + 1 => postorderNext F fuel (⟨child, 0⟩ :: { top with next := top.next + 1 } :: rest)

/-- A step down a path. The node is used up even if it does not resolve. -/
def pathNext (F : Forest α) : List NodeId → Step (List NodeId)
  | [] => (.ok none, [])
  | n :: rest =>
    match F.lookup n with
    | .error failure => (.error failure, rest)
    | .ok _ => (.ok (some n), rest)

/-- One step over `F`. -/
def next (F : Forest α) : Course → Step Course
  | preorder (some n) stack =>
    let (r, top) := begin F n
    (r, preorder none (top ++ stack))
  | preorder none stack =>
    let (r, stack) := preorderNext F stack
    (r, preorder none stack)
  | postorder stack =>
    let (r, stack) := postorderNext F F.size stack
    (r, postorder stack)
  | breadthFirst (some n) queue =>
    let (r, back) := begin F n
    (r, breadthFirst none (queue ++ back))
  | breadthFirst none queue =>
    let (r, queue) := breadthFirstNext F queue
    (r, breadthFirst none queue)
  | path rest =>
    let (r, rest) := pathNext F rest
    (r, path rest)

/-- The number of cursors or nodes held. -/
def length : Course → Nat
  | preorder start stack => start.toList.length + stack.length
  | postorder stack => stack.length
  | breadthFirst start queue => start.toList.length + queue.length
  | path rest => rest.length

end Course

/-- What is left to visit, and the generation of the forest when the walker was made. -/
structure Walker where
  stamp : UInt64
  course : Course
deriving DecidableEq, Repr

namespace Walker

variable {α : Type}

/-! ## Making walkers -/

/-- Each node before its subtree, children from left to right. -/
def preorder (F : Forest α) (n : NodeId) : Except Failure Walker := do
  let _ ← F.lookup n
  return ⟨F.generation, .preorder (some n) []⟩

/-- Each node after its subtree, children from left to right. -/
def postorder (F : Forest α) (n : NodeId) : Except Failure Walker := do
  let _ ← F.lookup n
  return ⟨F.generation, .postorder [⟨n, 0⟩]⟩

/-- Level by level, from left to right on each. -/
def breadthFirst (F : Forest α) (n : NodeId) : Except Failure Walker := do
  let _ ← F.lookup n
  return ⟨F.generation, .breadthFirst (some n) []⟩

/-- Climb from `n` to `ancestor`, putting the nodes met before `below`. -/
def pathUp (F : Forest α) (ancestor descendant : NodeId) :
    Nat → NodeId → List NodeId → Except Failure (List NodeId)
  | 0, n, _ => .error (.breach (.endlessChain n))
  | fuel + 1, n, below =>
    if n = ancestor then
      .ok (n :: below)
    else do
      match ← F.parent n with
      | none => .error (.tree (.notAnAncestor ancestor descendant))
      | some p => pathUp F ancestor descendant fuel p (n :: below)

/-- Down from `ancestor` to `descendant`, both included. The path is fixed when the walker is made. -/
def path (F : Forest α) (ancestor descendant : NodeId) : Except Failure Walker := do
  let _ ← F.lookup ancestor
  let _ ← F.lookup descendant
  let rest ← pathUp F ancestor descendant F.size descendant []
  return ⟨F.generation, .path rest⟩

/-! ## Walking -/

/-- Refuse a forest whose generation is not the walker's. -/
def check (F : Forest α) (w : Walker) : Except Failure Unit :=
  if F.generation = w.stamp then .ok ()
  else .error (.tree (.staleIterator w.stamp F.generation))

/-- One step over `F`. A walker that is refused stays as it was. -/
def next (F : Forest α) (w : Walker) : Course.Step Walker :=
  match w.check F with
  | .error failure => (.error failure, w)
  | .ok () =>
    let (r, course) := w.course.next F
    (r, { w with course })

/-- The number of steps after which any walker is through with `F`: each cursor, and the first node, stands
    for one subtree, and a step more finds the end. -/
def bound (F : Forest α) (w : Walker) : Nat :=
  (w.course.length + 1) * (F.size + 1)

/-- Step until the end, at most `fuel` times. -/
def drain (F : Forest α) : Nat → Walker → Except Failure (List NodeId)
  | 0, _ => .error (.breach .endlessWalk)
  | fuel + 1, w =>
    match w.next F with
    | (.error failure, _) => .error failure
    | (.ok none, _) => .ok []
    | (.ok (some n), w) => return n :: (← drain F fuel w)

/-- The nodes that are left, or the first failure met among them. -/
def collect (F : Forest α) (w : Walker) : Except Failure (List NodeId) :=
  w.drain F (w.bound F)

/-- Step until the end or until `limit` nodes are found, at most `fuel` times. There is nobody to hand an
    error to in the middle of a borrowed walk. -/
def drainUpTo (F : Forest α) : Nat → Nat → Walker → Except Failure (List NodeId)
  | _, 0, _ => .ok []
  | 0, _ + 1, _ => .error (.breach .endlessWalk)
  | fuel + 1, limit + 1, w =>
    match w.next F with
    | (.error (.tree error), _) => .error (.breach (.walkFailed error))
    | (.error (.breach breach), _) => .error (.breach breach)
    | (.ok none, _) => .ok []
    | (.ok (some n), w) => return n :: (← drainUpTo F fuel limit w)

/-- The first `limit` nodes that are left, or all of them. The forest cannot change meanwhile, so its
    generation is checked once, at the start. -/
def borrow (F : Forest α) (limit : Option Nat) (w : Walker) : Except Failure (List NodeId) := do
  w.check F
  let fuel := w.bound F
  w.drainUpTo F fuel (limit.getD fuel)

/-- The number of nodes a path walker has left; other walkers do not know. -/
def remaining (w : Walker) : Option Nat :=
  match w.course with
  | .path rest => some rest.length
  | _ => none

end Walker

/-! ## Whole traversals -/

namespace Forest

variable {α : Type}

/-- The subtree of `n`, each node before its children. -/
def preorder (F : Forest α) (n : NodeId) : Except Failure (List NodeId) :=
  Walker.borrow F none ⟨F.generation, .preorder (some n) []⟩

/-- The subtree of `n`, each node after its children. -/
def postorder (F : Forest α) (n : NodeId) : Except Failure (List NodeId) :=
  Walker.borrow F none ⟨F.generation, .postorder [⟨n, 0⟩]⟩

/-- The subtree of `n`, level by level. -/
def breadthFirst (F : Forest α) (n : NodeId) : Except Failure (List NodeId) :=
  Walker.borrow F none ⟨F.generation, .breadthFirst (some n) []⟩

/-- The nodes from `ancestor` down to `n`, both included. -/
def pathFrom (F : Forest α) (n ancestor : NodeId) : Except Failure (List NodeId) := do
  let w ← Walker.path F ancestor n
  w.borrow F none

end Forest

end Grove
