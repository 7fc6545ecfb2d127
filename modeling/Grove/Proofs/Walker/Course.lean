import Grove.Walker
import Grove.Proofs.Forest.Shape

/-!
# `Proofs.Walker.Course` — what a course has left

A course holds positions in child lists. What it has still to visit (`Course.rest`) is read off these by recursion
on the shapes of the children that lie ahead of them (`Cursor.ahead`): a stack of cursors stands for depth-first
listings in a row, and a queue for a single breadth-first listing, since the children ahead of all cursors
together are what `Tree.queued` has in its queue.

Each cursor that a step comes to is in one of three states, and there is one equation of the step for each: its node is
gone, it has run out (`Cursor.Spent`), or it has a next child. Over any well-formed forest, be it the one that the
names come from or another, a step thus has one of two outcomes (`Course.Outcome`, `Course.next_outcome`): it fails
to find a name that the course holds, or it yields the first node of what is left there and leaves the others. While
all the names are there (`Course.Valid`) it is the second, and a name that is not there stays with the course until a
step comes to it. A step in postorder goes down before it yields; no level is beyond the forest's size, so it gets to
the bottom.
-/

namespace Grove

variable {α : Type} {F : Forest α}

/-- The trees below a cursor's node from the next child on. -/
def Cursor.ahead (F : Forest α) (c : Cursor) : List (Tree NodeId) :=
  ((F.childrenOf c.node).drop c.next).map F.shape

/-- The cursor has run out: its node is there, and has no child at the cursor's position. -/
def Cursor.Spent (F : Forest α) (c : Cursor) : Prop :=
  F.contains c.node = true ∧ (F.childrenOf c.node)[c.next]? = none

/-- The node of a cursor is gone, or the cursor has run out, or there is a next child. -/
theorem Cursor.state_cases (F : Forest α) (c : Cursor) :
    F.contains c.node = false ∨ c.Spent F ∨ ∃ child, (F.childrenOf c.node)[c.next]? = some child := by
  cases hlive : F.contains c.node with
  | false => exact .inl rfl
  | true =>
    cases hchild : (F.childrenOf c.node)[c.next]? with
    | none => exact .inr (.inl ⟨hlive, hchild⟩)
    | some child => exact .inr (.inr ⟨child, rfl⟩)

namespace Course

open Forest

/-! ## What is left -/

/-- The nodes that a stack of cursors has left, each before its subtree. -/
def preorderRest (F : Forest α) (stack : List Cursor) : List NodeId :=
  stack.flatMap fun c => (c.ahead F).flatMap Tree.preorder

/-- The nodes that a stack of cursors has left, each after its subtree and the cursors' own nodes among them. -/
def postorderRest (F : Forest α) (stack : List Cursor) : List NodeId :=
  stack.flatMap fun c => (c.ahead F).flatMap Tree.postorder ++ [c.node]

/-- The nodes that a queue of cursors has left, level by level. -/
def queueRest (F : Forest α) (queue : List Cursor) : List NodeId :=
  Tree.queued (queue.flatMap (Cursor.ahead F))

/-- The nodes that are left for `course`, in the order in which it visits them. -/
def rest (F : Forest α) : Course → List NodeId
  | preorder start stack => start.toList.flatMap (fun n => (F.shape n).preorder) ++ preorderRest F stack
  | postorder stack => postorderRest F stack
  | breadthFirst start queue => Tree.queued (start.toList.map F.shape ++ queue.flatMap (Cursor.ahead F))
  | path rest => rest

/-- The names that a course holds. -/
def held : Course → List NodeId
  | preorder start stack => start.toList ++ stack.map Cursor.node
  | postorder stack => stack.map Cursor.node
  | breadthFirst start queue => start.toList ++ queue.map Cursor.node
  | path rest => rest

/-- All names that the course holds are there. -/
def Valid (F : Forest α) (course : Course) : Prop :=
  ∀ n ∈ course.held, F.contains n = true

/-- Names that are there make no difference to whether a course is valid. -/
theorem valid_congr {course course' : Course}
    (h : ∀ n, F.contains n = false → (n ∈ course'.held ↔ n ∈ course.held)) : course'.Valid F ↔ course.Valid F := by
  constructor
  · intro hvalid n hn
    by_contra hgone
    exact hgone (hvalid n ((h n (Bool.eq_false_of_not_eq_true hgone)).2 hn))
  · intro hvalid n hn
    by_contra hgone
    exact hgone (hvalid n ((h n (Bool.eq_false_of_not_eq_true hgone)).1 hn))

/-- What a step over `F` can come to, from a course that holds the names `held` and has the nodes `left` to a
    course with the names `held'` and the nodes `left'`. The node yielded is there. Of the names that are not, none
    comes in and none is given away, so that at the end, where no names are held, there never was one. -/
inductive Outcome (F : Forest α) (held left : List NodeId) (answer : Except Failure (Option NodeId))
    (held' left' : List NodeId) : Prop where
  /-- A name that is held does not resolve. -/
  | lost (n : NodeId) (hn : n ∈ held) (hgone : F.contains n = false)
      (hanswer : answer = .error (.tree (.nodeNotFound n)))
  /-- The first node that is left is yielded, or nothing if there is none. -/
  | yielded (hanswer : answer = .ok left.head?) (hlive : ∀ n ∈ left.head?, F.contains n = true)
      (hleft : left' = left.tail) (hgone : ∀ n, F.contains n = false → (n ∈ held' ↔ n ∈ held))
      (hend : left = [] → held' = [])

/-- The names held before may be others, as long as they differ in names that are there. -/
theorem Outcome.of_held {held names left held' left' : List NodeId} {answer : Except Failure (Option NodeId)}
    (h : Outcome F names left answer held' left') (hnames : ∀ n, F.contains n = false → (n ∈ names ↔ n ∈ held)) :
    Outcome F held left answer held' left' := by
  cases h with
  | lost n hn hgone hanswer => exact .lost n ((hnames n hgone).1 hn) hgone hanswer
  | yielded hanswer hlive hleft hgone hend =>
    exact .yielded hanswer hlive hleft (fun n hn => (hgone n hn).trans (hnames n hn)) hend

/-- A node that is there is yielded. -/
theorem Outcome.of_node {held held' left : List NodeId} {n : NodeId} (hn : F.contains n = true)
    (hgone : ∀ m, F.contains m = false → (m ∈ held' ↔ m ∈ held)) :
    Outcome F held (n :: left) (.ok (some n)) held' left := by
  refine .yielded rfl ?_ rfl hgone nofun
  rintro m ⟨⟩
  exact hn

/-- At the end nothing is held. -/
theorem Outcome.of_nil : Outcome F [] [] (.ok none) [] [] :=
  .yielded rfl nofun rfl (fun _ _ => Iff.rfl) fun _ => rfl

/-- The name of a node that is there makes no difference. -/
theorem mem_iff_mem_cons {n m : NodeId} (hn : F.contains n = true) (hm : F.contains m = false) (l : List NodeId) :
    m ∈ l ↔ m ∈ n :: l := by
  have hne : m ≠ n := by
    rintro rfl
    rw [hn] at hm
    cases hm
  rw [List.mem_cons, or_iff_right hne]

/-! ## Cursors -/

theorem lookup_childrenOf {n : NodeId} (hn : F.contains n = true) :
    ∃ node, F.lookup n = .ok node ∧ node.children = F.childrenOf n := by
  obtain ⟨node, hnode, hlookup⟩ := lookup_of_contains hn
  exact ⟨node, hlookup, (childrenOf_of_get? hnode).symm⟩

theorem branches_eq {n : NodeId} (hn : F.contains n = true) :
    branches F n = .ok !(F.childrenOf n).isEmpty := by
  obtain ⟨node, hlookup, hchildren⟩ := lookup_childrenOf hn
  rw [branches, hlookup, ← hchildren]
  rfl

/-- A cursor that has run out has nothing ahead of it. -/
theorem ahead_of_none {c : Cursor} (h : (F.childrenOf c.node)[c.next]? = none) : c.ahead F = [] := by
  rw [Cursor.ahead, List.drop_of_length_le (List.getElem?_eq_none_iff.1 h), List.map_nil]

/-- The next child is ahead of a cursor, and then what is ahead of the cursor moved on. -/
theorem ahead_of_some {c : Cursor} {child : NodeId} (h : (F.childrenOf c.node)[c.next]? = some child) :
    c.ahead F = F.shape child :: Cursor.ahead F { c with next := c.next + 1 } := by
  obtain ⟨hlt, hchild⟩ := List.getElem?_eq_some_iff.1 h
  rw [Cursor.ahead, List.drop_eq_getElem_cons hlt, hchild, List.map_cons]
  rfl

theorem ahead_zero (hF : F.WellFormed) {n : NodeId} (hn : F.contains n = true) :
    Cursor.ahead F ⟨n, 0⟩ = (F.shape n).children := by
  rw [hF.children_shape hn, Cursor.ahead, List.drop_zero]

/-- The cursor for what is below a node that has been yielded; a leaf needs none. -/
def below (F : Forest α) (n : NodeId) : List Cursor :=
  if (F.childrenOf n).isEmpty then [] else [⟨n, 0⟩]

theorem not_mem_below {n m : NodeId} (hn : F.contains n = true) (hm : F.contains m = false) :
    m ∉ (below F n).map Cursor.node := by
  unfold below
  split
  · exact List.not_mem_nil
  · exact (mem_iff_mem_cons hn hm []).not.1 List.not_mem_nil

theorem flatMap_ahead_below (hF : F.WellFormed) {n : NodeId} (hn : F.contains n = true) :
    (below F n).flatMap (Cursor.ahead F) = (F.shape n).children := by
  unfold below
  split
  · rename_i hleaf
    rw [hF.children_shape hn, List.isEmpty_iff.1 hleaf]
    rfl
  · rw [List.flatMap_singleton, ahead_zero hF hn]

/-- The first node is yielded at once, and what is below it becomes a cursor's. -/
theorem begin_eq {n : NodeId} (hn : F.contains n = true) : begin F n = (.ok (some n), below F n) := by
  unfold begin below
  rw [branches_eq hn]
  cases (F.childrenOf n).isEmpty <;> rfl

theorem begin_of_not_contains {n : NodeId} (hn : F.contains n = false) :
    begin F n = (.error (.tree (.nodeNotFound n)), []) := by
  unfold begin
  rw [branches, lookup_of_not_contains hn]
  rfl

/-! ## Steps of a stack in preorder -/

section

variable {top : Cursor} {child : NodeId} {stack : List Cursor}

theorem preorderNext_of_gone (h : F.contains top.node = false) :
    preorderNext F (top :: stack) = (.error (.tree (.nodeNotFound top.node)), top :: stack) := by
  rw [preorderNext, lookup_of_not_contains h]

theorem preorderNext_of_spent (h : top.Spent F) : preorderNext F (top :: stack) = preorderNext F stack := by
  obtain ⟨node, hlookup, hchildren⟩ := lookup_childrenOf h.1
  rw [preorderNext, hlookup]
  simp only [hchildren, h.2]

theorem preorderNext_of_child (hF : F.WellFormed) (h : (F.childrenOf top.node)[top.next]? = some child) :
    preorderNext F (top :: stack)
      = (.ok (some child), below F child ++ { top with next := top.next + 1 } :: stack) := by
  obtain ⟨node, hlookup, hchildren⟩ := lookup_childrenOf (contains_of_getElem? h)
  rw [preorderNext, hlookup]
  simp only [hchildren, h, branches_eq (hF.contains_child_of_getElem? h)]
  unfold below
  cases (F.childrenOf child).isEmpty <;> rfl

theorem preorderRest_of_spent (h : top.Spent F) : preorderRest F (top :: stack) = preorderRest F stack := by
  rw [preorderRest, List.flatMap_cons, ahead_of_none h.2]
  rfl

theorem preorderRest_below (hF : F.WellFormed) {n : NodeId} (hn : F.contains n = true) (stack : List Cursor) :
    preorderRest F (below F n ++ stack) = (F.shape n).children.flatMap Tree.preorder ++ preorderRest F stack := by
  rw [← flatMap_ahead_below hF hn, List.flatMap_assoc]
  exact List.flatMap_append

/-- The next child comes first, then the nodes below it and what is ahead of the cursor moved on. -/
theorem preorderRest_of_child (hF : F.WellFormed) (h : (F.childrenOf top.node)[top.next]? = some child) :
    preorderRest F (top :: stack)
      = child :: preorderRest F (below F child ++ { top with next := top.next + 1 } :: stack) := by
  have hlive := hF.contains_child_of_getElem? h
  rw [preorderRest_below hF hlive]
  simp only [preorderRest, List.flatMap_cons]
  rw [ahead_of_some h, List.flatMap_cons, Tree.preorder_eq, hF.value_shape hlive, List.append_assoc,
    List.cons_append]

theorem preorderNext_outcome (hF : F.WellFormed) (stack : List Cursor) :
    Outcome F (stack.map Cursor.node) (preorderRest F stack) (preorderNext F stack).1
      ((preorderNext F stack).2.map Cursor.node) (preorderRest F (preorderNext F stack).2) := by
  induction stack with
  | nil => exact .of_nil
  | cons top rest ih =>
    rcases top.state_cases F with hgone | hspent | ⟨child, hchild⟩
    · rw [preorderNext_of_gone hgone]
      exact .lost top.node (List.mem_cons_self ..) hgone rfl
    · -- a cursor that has run out stands for nothing, and the step goes on below it
      rw [preorderNext_of_spent hspent, preorderRest_of_spent hspent]
      exact ih.of_held fun n hn => mem_iff_mem_cons hspent.1 hn _
    · have hlive := hF.contains_child_of_getElem? hchild
      rw [preorderNext_of_child hF hchild, preorderRest_of_child hF hchild]
      refine .of_node hlive fun n hn => ?_
      rw [List.map_append, List.mem_append, or_iff_right (not_mem_below hlive hn)]
      exact Iff.rfl

end

/-! ## Steps of a queue -/

section

variable {front : Cursor} {child : NodeId} {queue : List Cursor}

theorem breadthFirstNext_of_gone (h : F.contains front.node = false) :
    breadthFirstNext F (front :: queue) = (.error (.tree (.nodeNotFound front.node)), front :: queue) := by
  rw [breadthFirstNext, lookup_of_not_contains h]

theorem breadthFirstNext_of_spent (h : front.Spent F) :
    breadthFirstNext F (front :: queue) = breadthFirstNext F queue := by
  obtain ⟨node, hlookup, hchildren⟩ := lookup_childrenOf h.1
  rw [breadthFirstNext, hlookup]
  simp only [hchildren, h.2]

theorem breadthFirstNext_of_child (hF : F.WellFormed) (h : (F.childrenOf front.node)[front.next]? = some child) :
    breadthFirstNext F (front :: queue)
      = (.ok (some child), { front with next := front.next + 1 } :: queue ++ below F child) := by
  obtain ⟨node, hlookup, hchildren⟩ := lookup_childrenOf (contains_of_getElem? h)
  rw [breadthFirstNext, hlookup]
  simp only [hchildren, h, branches_eq (hF.contains_child_of_getElem? h)]
  unfold below
  cases (F.childrenOf child).isEmpty
  · rfl
  · simp

theorem queueRest_of_spent (h : front.Spent F) : queueRest F (front :: queue) = queueRest F queue := by
  rw [queueRest, List.flatMap_cons, ahead_of_none h.2]
  rfl

/-- The next child comes first; the trees below it are the last ones in the queue then. -/
theorem queueRest_of_child (hF : F.WellFormed) (h : (F.childrenOf front.node)[front.next]? = some child) :
    queueRest F (front :: queue)
      = child :: queueRest F ({ front with next := front.next + 1 } :: queue ++ below F child) := by
  have hlive := hF.contains_child_of_getElem? h
  simp only [queueRest, List.flatMap_append, List.flatMap_cons]
  rw [ahead_of_some h, List.cons_append, Tree.queued_cons, hF.value_shape hlive, flatMap_ahead_below hF hlive]

theorem breadthFirstNext_outcome (hF : F.WellFormed) (queue : List Cursor) :
    Outcome F (queue.map Cursor.node) (queueRest F queue) (breadthFirstNext F queue).1
      ((breadthFirstNext F queue).2.map Cursor.node) (queueRest F (breadthFirstNext F queue).2) := by
  induction queue with
  | nil =>
    have hnothing : queueRest F [] = [] := Tree.queued_nil
    rw [breadthFirstNext, hnothing]
    exact .of_nil
  | cons front rest ih =>
    rcases front.state_cases F with hgone | hspent | ⟨child, hchild⟩
    · rw [breadthFirstNext_of_gone hgone]
      exact .lost front.node (List.mem_cons_self ..) hgone rfl
    · rw [breadthFirstNext_of_spent hspent, queueRest_of_spent hspent]
      exact ih.of_held fun n hn => mem_iff_mem_cons hspent.1 hn _
    · have hlive := hF.contains_child_of_getElem? hchild
      rw [breadthFirstNext_of_child hF hchild, queueRest_of_child hF hchild]
      refine .of_node hlive fun n hn => ?_
      rw [List.map_append, List.mem_append, or_iff_left (not_mem_below hlive hn)]
      exact Iff.rfl

end

/-! ## Steps of a stack in postorder -/

section

variable {top : Cursor} {child : NodeId} {stack : List Cursor}

theorem postorderNext_of_gone (h : F.contains top.node = false) (fuel : Nat) :
    postorderNext F fuel (top :: stack) = (.error (.tree (.nodeNotFound top.node)), top :: stack) := by
  rw [postorderNext, lookup_of_not_contains h]

theorem postorderNext_of_spent (h : top.Spent F) (fuel : Nat) :
    postorderNext F fuel (top :: stack) = (.ok (some top.node), stack) := by
  obtain ⟨node, hlookup, hchildren⟩ := lookup_childrenOf h.1
  rw [postorderNext, hlookup]
  simp only [hchildren, h.2]

theorem postorderNext_of_child (h : (F.childrenOf top.node)[top.next]? = some child) (fuel : Nat) :
    postorderNext F (fuel + 1) (top :: stack)
      = postorderNext F fuel (⟨child, 0⟩ :: { top with next := top.next + 1 } :: stack) := by
  obtain ⟨node, hlookup, hchildren⟩ := lookup_childrenOf (contains_of_getElem? h)
  rw [postorderNext, hlookup]
  simp only [hchildren, h]

theorem postorderRest_of_spent (h : top.Spent F) :
    postorderRest F (top :: stack) = top.node :: postorderRest F stack := by
  rw [postorderRest, List.flatMap_cons, ahead_of_none h.2]
  rfl

/-- Going down rearranges a stack and leaves what it stands for. -/
theorem postorderRest_of_child (hF : F.WellFormed) (h : (F.childrenOf top.node)[top.next]? = some child) :
    postorderRest F (top :: stack)
      = postorderRest F (⟨child, 0⟩ :: { top with next := top.next + 1 } :: stack) := by
  have hlive := hF.contains_child_of_getElem? h
  simp only [postorderRest, List.flatMap_cons]
  rw [ahead_of_some h, List.flatMap_cons, hF.shape_eq hlive, Tree.postorder_node, ahead_zero hF hlive,
    hF.children_shape hlive]
  simp only [List.append_assoc]

/-- A turn of a step in postorder: from the cursor on top down to its next child. -/
inductive Turn (F : Forest α) : List Cursor → List Cursor → Prop where
  | down {top : Cursor} {child : NodeId} {stack : List Cursor}
      (hchild : (F.childrenOf top.node)[top.next]? = some child) :
      Turn F (top :: stack) (⟨child, 0⟩ :: { top with next := top.next + 1 } :: stack)

/-- The stacks that a step in postorder comes through. -/
abbrev Turns (F : Forest α) : List Cursor → List Cursor → Prop :=
  Relation.ReflTransGen (Turn F)

/-- A step in postorder turns down from a node that is there until a cursor runs out, and takes that cursor away.
    Each turn goes one level down, so the fuel lasts. -/
theorem exists_turns (hF : F.WellFormed) (fuel : Nat) (top : Cursor) (stack : List Cursor)
    (htop : F.contains top.node = true) (hfuel : F.size ≤ fuel + F.levelOf top.node) :
    ∃ deepest rest, Turns F (top :: stack) (deepest :: rest) ∧ deepest.Spent F ∧
      postorderNext F fuel (top :: stack) = (.ok (some deepest.node), rest) := by
  induction fuel generalizing top stack with
  | zero =>
    -- no fuel would mean that the top cursor stands as deep as the forest is large
    have hlt := hF.levelOf_lt_size htop
    omega
  | succ fuel ih =>
    cases hchild : (F.childrenOf top.node)[top.next]? with
    | none =>
      have hspent : top.Spent F := ⟨htop, hchild⟩
      exact ⟨top, stack, .refl, hspent, postorderNext_of_spent hspent _⟩
    | some child =>
      have hlevel := hF.levelOf_child (hF.parentOf_of_getElem? hchild)
      have hdown : F.size ≤ fuel + F.levelOf child := by omega
      obtain ⟨deepest, rest, hturns, hspent, hnext⟩ :=
        ih ⟨child, 0⟩ ({ top with next := top.next + 1 } :: stack) (hF.contains_child_of_getElem? hchild) hdown
      exact ⟨deepest, rest, hturns.head (.down hchild), hspent, (postorderNext_of_child hchild fuel).trans hnext⟩

/-- Turns leave what the stack stands for, and bring in names that are there only. -/
theorem rest_of_turns (hF : F.WellFormed) {stack' : List Cursor} (h : Turns F stack stack') :
    postorderRest F stack = postorderRest F stack' ∧
      ∀ m, F.contains m = false → (m ∈ stack'.map Cursor.node ↔ m ∈ stack.map Cursor.node) := by
  induction h with
  | refl => exact ⟨rfl, fun _ _ => Iff.rfl⟩
  | tail _ hturn ih =>
    cases hturn with
    | down hchild =>
      have hlive := hF.contains_child_of_getElem? hchild
      exact ⟨ih.1.trans (postorderRest_of_child hF hchild),
        fun m hm => (mem_iff_mem_cons hlive hm _).symm.trans (ih.2 m hm)⟩

theorem postorderNext_outcome (hF : F.WellFormed) (stack : List Cursor) :
    Outcome F (stack.map Cursor.node) (postorderRest F stack) (postorderNext F F.size stack).1
      ((postorderNext F F.size stack).2.map Cursor.node) (postorderRest F (postorderNext F F.size stack).2) := by
  cases stack with
  | nil =>
    rw [postorderNext]
    exact .of_nil
  | cons top stack =>
    cases htop : F.contains top.node with
    | false =>
      rw [postorderNext_of_gone htop]
      exact .lost top.node (List.mem_cons_self ..) htop rfl
    | true =>
      obtain ⟨deepest, rest, hturns, hspent, hnext⟩ := exists_turns hF F.size top stack htop (by omega)
      obtain ⟨hrest, hgone⟩ := rest_of_turns hF hturns
      rw [hnext, hrest, postorderRest_of_spent hspent]
      exact .of_node hspent.1 fun m hm => (mem_iff_mem_cons hspent.1 hm _).trans (hgone m hm)

end

/-! ## The first step, and steps down a path -/

theorem rest_preorder_start (hF : F.WellFormed) {n : NodeId} (hn : F.contains n = true) (stack : List Cursor) :
    rest F (preorder (some n) stack) = n :: preorderRest F (below F n ++ stack) := by
  rw [preorderRest_below hF hn, rest, Option.toList_some, List.flatMap_singleton, Tree.preorder_eq, hF.value_shape hn,
    List.cons_append]

theorem rest_breadthFirst_start (hF : F.WellFormed) {n : NodeId} (hn : F.contains n = true) (queue : List Cursor) :
    rest F (breadthFirst (some n) queue) = n :: queueRest F (queue ++ below F n) := by
  rw [rest, queueRest, Option.toList_some, List.map_singleton, List.singleton_append, Tree.queued_cons,
    hF.value_shape hn, List.flatMap_append, flatMap_ahead_below hF hn]

theorem pathNext_of_gone {n : NodeId} (h : F.contains n = false) (l : List NodeId) :
    pathNext F (n :: l) = (.error (.tree (.nodeNotFound n)), l) := by
  rw [pathNext, lookup_of_not_contains h]

theorem pathNext_of_contains {n : NodeId} (h : F.contains n = true) (l : List NodeId) :
    pathNext F (n :: l) = (.ok (some n), l) := by
  obtain ⟨node, hlookup, -⟩ := lookup_childrenOf h
  rw [pathNext, hlookup]

theorem pathNext_outcome (l : List NodeId) :
    Outcome F l l (pathNext F l).1 (pathNext F l).2 (pathNext F l).2 := by
  cases l with
  | nil => exact .of_nil
  | cons n rest =>
    cases hn : F.contains n with
    | false =>
      rw [pathNext_of_gone hn]
      exact .lost n (List.mem_cons_self ..) hn rfl
    | true =>
      rw [pathNext_of_contains hn]
      exact .of_node hn fun m hm => mem_iff_mem_cons hn hm _

/-! ## Steps of a course -/

/-- **One step**, over any well-formed forest. -/
theorem next_outcome (hF : F.WellFormed) (course : Course) :
    Outcome F course.held (course.rest F) (course.next F).1 (course.next F).2.held ((course.next F).2.rest F) := by
  cases course with
  | preorder start stack =>
    cases start with
    | none => exact preorderNext_outcome hF stack
    | some n =>
      cases hn : F.contains n with
      | false =>
        rw [next, begin_of_not_contains hn]
        exact .lost n (List.mem_cons_self ..) hn rfl
      | true =>
        rw [next, begin_eq hn, rest_preorder_start hF hn]
        refine .of_node hn fun m hm => ?_
        show m ∈ (below F n ++ stack).map Cursor.node ↔ m ∈ n :: stack.map Cursor.node
        rw [List.map_append, List.mem_append, or_iff_right (not_mem_below hn hm)]
        exact mem_iff_mem_cons hn hm _
  | postorder stack => exact postorderNext_outcome hF stack
  | breadthFirst start queue =>
    cases start with
    | none => exact breadthFirstNext_outcome hF queue
    | some n =>
      cases hn : F.contains n with
      | false =>
        rw [next, begin_of_not_contains hn]
        exact .lost n (List.mem_cons_self ..) hn rfl
      | true =>
        rw [next, begin_eq hn, rest_breadthFirst_start hF hn]
        refine .of_node hn fun m hm => ?_
        show m ∈ (queue ++ below F n).map Cursor.node ↔ m ∈ n :: queue.map Cursor.node
        rw [List.map_append, List.mem_append, or_iff_left (not_mem_below hn hm)]
        exact mem_iff_mem_cons hn hm _
  | path l => exact pathNext_outcome l

/-! ## The number of steps -/

theorem length_flatMap_le {β γ : Type} {f : β → List γ} {k : Nat} {l : List β} (h : ∀ b ∈ l, (f b).length ≤ k) :
    (l.flatMap f).length ≤ l.length * k := by
  induction l with
  | nil => simp
  | cons b l ih =>
    have hb := h b (List.mem_cons_self ..)
    have hl := ih fun c hc => h c (List.mem_cons_of_mem _ hc)
    rw [List.flatMap_cons, List.length_append, List.length_cons, Nat.succ_mul]
    omega

/-- A name stands for no more nodes than the forest has, and for one node if it does not resolve. -/
theorem length_preorder_shape_le (hF : F.WellFormed) (n : NodeId) :
    (F.shape n).preorder.length ≤ F.size + 1 := by
  cases hn : F.contains n with
  | true => exact Nat.le_succ_of_le (hF.length_preorder_shape_le hn)
  | false =>
    have hshape : ∀ fuel, F.shapeWithin fuel n = .node n [] := by
      intro fuel
      cases fuel with
      | zero => rfl
      | succ fuel => rw [shapeWithin, childrenOf_of_not_contains hn, List.map_nil]
    rw [shape, hshape, Tree.preorder_node]
    simp

/-- What a cursor stands for is part of the tree below its node, without the node. -/
theorem length_ahead_le (hF : F.WellFormed) (c : Cursor) :
    ((c.ahead F).flatMap Tree.preorder).length ≤ F.size := by
  cases hc : F.contains c.node with
  | false =>
    rw [Cursor.ahead, childrenOf_of_not_contains hc, List.drop_nil]
    exact Nat.zero_le _
  | true =>
    have hle := hF.length_preorder_shape_le hc
    rw [hF.preorder_shape hc, List.length_cons, ← List.take_append_drop c.next (F.childrenOf c.node),
      List.flatMap_append, List.length_append] at hle
    rw [Cursor.ahead, List.flatMap_map]
    omega

/-- **No course has more left than one tree for each name that it holds.** -/
theorem length_rest_le (hF : F.WellFormed) (course : Course) :
    (course.rest F).length ≤ course.length * (F.size + 1) := by
  have hcursors : ∀ l : List Cursor, (preorderRest F l).length ≤ l.length * (F.size + 1) := fun l =>
    length_flatMap_le fun c _ => Nat.le_succ_of_le (length_ahead_le hF c)
  have hstart : ∀ l : List NodeId,
      (l.flatMap fun n => (F.shape n).preorder).length ≤ l.length * (F.size + 1) := fun l =>
    length_flatMap_le fun n _ => length_preorder_shape_le hF n
  cases course with
  | preorder start stack =>
    have hfirst := hstart start.toList
    have hrest := hcursors stack
    simp only [rest, length, List.length_append, Nat.add_mul]
    omega
  | postorder stack =>
    -- each cursor stands for what is ahead of it and for its own node
    apply length_flatMap_le
    intro c _
    have hle := length_ahead_le hF c
    have hperm := List.Perm.flatMap_left (c.ahead F) fun t _ => t.postorder_perm_preorder
    rw [List.length_append, hperm.length_eq, List.length_singleton]
    omega
  | breadthFirst start queue =>
    have hfirst := hstart start.toList
    have hrest := hcursors queue
    have hperm := (Tree.queued_perm (start.toList.map F.shape ++ queue.flatMap (Cursor.ahead F))).length_eq
    rw [List.flatMap_append, List.flatMap_map, List.flatMap_assoc, ← preorderRest, List.length_append] at hperm
    simp only [rest, length, Nat.add_mul]
    omega
  | path l =>
    exact Nat.le_mul_of_pos_right _ (Nat.succ_pos _)

end Course

end Grove
