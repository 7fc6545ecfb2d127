import Grove.Proofs.Forest.Depth
import Grove.Proofs.Walker.Session

/-!
# `Proofs.Walker.Cursors` — where the cursors of a walker stand

What a course holds in memory is a list of cursors. This file says where these stand while a walker goes through the
subtree of `n`.

A stack leads down from `n` (`LeadsDown`): each cursor is for the child that the cursor below it was moved past last.
The levels along it go up by one, so no stack is longer than the tree is high (`LeadsDown.length_le`). In postorder the
cursor on top may be for a leaf, and a step comes through longer stacks than the one it leaves (`Turns`); in preorder
all cursors are for inner nodes, and there is a level further down.

A queue holds cursors for inner nodes that have been visited, in the order of the visit, and only the one in front has
been moved (`Lined`). No node in it is more than one level below that of the front, since a cursor joins it for a child
of the front.

For each order there is a predicate of the courses that a walker can have (`InPostorder`, `InPreorder`,
`InBreadthFirst`). Steps keep it over any forest with the links of the one that the walker was made on (`SameLinks`),
and a session stays on such forests until a structural write is counted (`Session.Good.kept_of_run`).
-/

namespace Grove

variable {α : Type} {F G : Forest α} {n : NodeId}

open Forest

namespace Course

/-! ## Cursors for what is below a node -/

theorem mem_below_iff {x : NodeId} {c : Cursor} : c ∈ below F x ↔ F.childrenOf x ≠ [] ∧ c = ⟨x, 0⟩ := by
  unfold below
  split
  · rename_i hleaf
    simp [List.isEmpty_iff.1 hleaf]
  · rename_i hinner
    simpa using fun _ => hinner

theorem inner_of_mem_below (F : Forest α) (x : NodeId) : ∀ c ∈ below F x, F.childrenOf c.node ≠ [] := by
  intro c hc
  obtain ⟨hinner, rfl⟩ := mem_below_iff.1 hc
  exact hinner

theorem map_node_below_sublist (F : Forest α) (x : NodeId) : ((below F x).map Cursor.node).Sublist [x] := by
  unfold below
  split
  · exact List.nil_sublist _
  · exact List.Sublist.refl _

/-! ## Stacks -/

/-- The stack leads down from `n`, its top coming first. Each cursor below another one was moved past that one's
    node. -/
structure LeadsDown (F : Forest α) (n : NodeId) (stack : List Cursor) : Prop where
  chain : stack.IsChain fun upper lower =>
    ∃ k, lower.next = k + 1 ∧ (F.childrenOf lower.node)[k]? = some upper.node
  bottom : ∀ c ∈ stack.getLast?, c.node = n

namespace LeadsDown

variable {top : Cursor} {child : NodeId} {stack stack' : List Cursor}

theorem nil : LeadsDown F n [] :=
  ⟨.nil, nofun⟩

theorem singleton (F : Forest α) (n : NodeId) (k : Nat) : LeadsDown F n [⟨n, k⟩] := by
  refine ⟨.singleton _, ?_⟩
  rintro c ⟨⟩
  rfl

theorem of_begin (F : Forest α) (n : NodeId) : LeadsDown F n (below F n) := by
  unfold below
  split
  · exact nil
  · exact singleton F n 0

theorem of_cons (h : LeadsDown F n (top :: stack)) : LeadsDown F n stack := by
  refine ⟨h.chain.of_cons, ?_⟩
  cases stack with
  | nil => exact nofun
  | cons lower rest =>
    intro c hc
    exact h.bottom c (by rwa [List.getLast?_cons_cons])

theorem cons {lower upper : Cursor} (h : LeadsDown F n (lower :: stack))
    (hpast : ∃ k, lower.next = k + 1 ∧ (F.childrenOf lower.node)[k]? = some upper.node) :
    LeadsDown F n (upper :: lower :: stack) := by
  refine ⟨List.isChain_cons_cons.2 ⟨hpast, h.chain⟩, ?_⟩
  intro c hc
  rw [List.getLast?_cons_cons] at hc
  exact h.bottom c hc

/-- The cursor on top stands anywhere among the children of its node. -/
theorem moved (h : LeadsDown F n (top :: stack)) (k : Nat) : LeadsDown F n ({ top with next := k } :: stack) := by
  cases stack with
  | nil =>
    rw [← h.bottom top rfl]
    exact singleton F top.node k
  | cons lower rest => exact h.of_cons.cons (List.isChain_cons_cons.1 h.chain).1

/-- One more cursor, for the next child of the one on top. -/
theorem push (h : LeadsDown F n (top :: stack)) (hchild : (F.childrenOf top.node)[top.next]? = some child) :
    LeadsDown F n (⟨child, 0⟩ :: { top with next := top.next + 1 } :: stack) :=
  (h.moved (top.next + 1)).cons ⟨top.next, rfl, hchild⟩

theorem of_turns (h : LeadsDown F n stack) (hturns : Turns F stack stack') : LeadsDown F n stack' := by
  induction hturns with
  | refl => exact h
  | tail _ hturn ih =>
    cases hturn with
    | down hchild => exact ih.push hchild

/-- What a step in preorder leaves when it has yielded a child of the node on top. -/
theorem of_child (h : LeadsDown F n (top :: stack)) (hchild : (F.childrenOf top.node)[top.next]? = some child) :
    LeadsDown F n (below F child ++ { top with next := top.next + 1 } :: stack) := by
  unfold below
  split
  · exact h.moved (top.next + 1)
  · exact h.push hchild

section

variable (hF : F.WellFormed)

include hF

/-- The node on top is below `n`, and each further cursor stands one level deeper. -/
theorem level_top_eq (h : LeadsDown F n (top :: stack)) :
    F.Ancestor n top.node ∧ F.levelOf top.node = F.levelOf n + stack.length := by
  induction stack generalizing top with
  | nil =>
    rw [h.bottom top rfl]
    exact ⟨ancestor_refl n, rfl⟩
  | cons lower rest ih =>
    obtain ⟨⟨k, -, hchild⟩, -⟩ := List.isChain_cons_cons.1 h.chain
    have hparent := hF.parentOf_of_getElem? hchild
    obtain ⟨hup, hlevel⟩ := ih h.of_cons
    refine ⟨hup.trans (ancestor_of_parentOf hparent), ?_⟩
    rw [hF.levelOf_child hparent, hlevel, List.length_cons, Nat.add_assoc]

theorem contains_top (h : LeadsDown F n (top :: stack)) (hn : F.contains n = true) : F.contains top.node = true :=
  WellFormed.contains_of_ancestor (h.level_top_eq hF).1 hn

variable (hn : F.contains n = true)

include hn

/-- **A stack is no longer than the nodes on a longest way down.** -/
theorem length_le (h : LeadsDown F n stack) : stack.length ≤ (F.shape n).height + 1 := by
  cases stack with
  | nil => exact Nat.zero_le _
  | cons top rest =>
    obtain ⟨hup, hlevel⟩ := h.level_top_eq hF
    have hle := hF.levelOf_le_add_height hn hup
    rw [List.length_cons]
    omega

/-- One of inner nodes is shorter, as there is a child below its top. -/
theorem length_le_of_inner (h : LeadsDown F n stack) (hinner : ∀ c ∈ stack, F.childrenOf c.node ≠ []) :
    stack.length ≤ (F.shape n).height := by
  cases stack with
  | nil => exact Nat.zero_le _
  | cons top rest =>
    obtain ⟨hup, hlevel⟩ := h.level_top_eq hF
    obtain ⟨child, hlisted⟩ := List.exists_mem_of_ne_nil _ (hinner top (List.mem_cons_self ..))
    have hparent := (hF.mem_childrenOf_iff top.node child).1 hlisted
    have hle := hF.levelOf_le_add_height hn (hup.trans (ancestor_of_parentOf hparent))
    rw [hF.levelOf_child hparent] at hle
    rw [List.length_cons]
    omega

end

end LeadsDown

/-! ## Queues -/

/-- A queue in breadth-first order below `n`, its front coming first. Its nodes are inner ones and have been seen in
    that order, and what is left comes after what was seen. -/
structure Lined (F : Forest α) (n : NodeId) (queue : List Cursor) : Prop where
  seen : ∃ seen, (queue.map Cursor.node).Sublist seen ∧ seen ++ queueRest F queue = Tree.queued [F.shape n]
  inner : ∀ c ∈ queue, F.childrenOf c.node ≠ []
  unmoved : ∀ c ∈ queue.tail, c.next = 0
  adjacent : ∀ front ∈ queue.head?, ∀ c ∈ queue, F.levelOf c.node ≤ F.levelOf front.node + 1

namespace Lined

variable {front : Cursor} {child : NodeId} {queue : List Cursor}

theorem sublist (h : Lined F n queue) : (queue.map Cursor.node).Sublist (Tree.queued [F.shape n]) := by
  obtain ⟨seen, hsub, hall⟩ := h.seen
  rw [← hall]
  exact hsub.trans (List.sublist_append_left ..)

section

variable (hF : F.WellFormed)

include hF

/-- The front is moved past its next child, for which a cursor joins unless it is a leaf. -/
theorem of_child (h : Lined F n (front :: queue)) (hchild : (F.childrenOf front.node)[front.next]? = some child) :
    Lined F n ({ front with next := front.next + 1 } :: queue ++ below F child) where
  seen := by
    obtain ⟨seen, hsub, hall⟩ := h.seen
    refine ⟨seen ++ [child], ?_, ?_⟩
    · rw [List.map_append]
      exact hsub.append (map_node_below_sublist F child)
    · rw [← hall, queueRest_of_child hF hchild, List.append_assoc, List.singleton_append]
  inner :=
    List.forall_mem_append.2 ⟨List.forall_mem_cons.2 (List.forall_mem_cons.1 h.inner), inner_of_mem_below F child⟩
  unmoved := by
    refine List.forall_mem_append.2 ⟨h.unmoved, ?_⟩
    intro c hc
    obtain ⟨-, rfl⟩ := mem_below_iff.1 hc
    rfl
  adjacent := by
    intro moved hmoved
    obtain rfl := Option.some.inj hmoved
    refine List.forall_mem_append.2 ⟨List.forall_mem_cons.2 (List.forall_mem_cons.1 (h.adjacent front rfl)), ?_⟩
    intro c hc
    obtain ⟨-, rfl⟩ := mem_below_iff.1 hc
    have hparent := hF.parentOf_of_getElem? hchild
    exact Nat.le_of_eq (hF.levelOf_child hparent)

variable (hn : F.contains n = true)

include hn

/-- The queue is empty, or has a cursor for `n`, after the first step. -/
theorem of_begin : Lined F n (below F n) where
  seen := by
    refine ⟨[n], map_node_below_sublist F n, ?_⟩
    rw [List.singleton_append, queueRest, flatMap_ahead_below hF hn, Tree.queued_cons, hF.value_shape hn,
      List.nil_append]
  inner := inner_of_mem_below F n
  unmoved := by
    intro c hc
    obtain ⟨-, rfl⟩ := mem_below_iff.1 (List.mem_of_mem_tail hc)
    rfl
  adjacent := by
    intro front hfront c hc
    obtain ⟨-, rfl⟩ := mem_below_iff.1 (List.mem_of_mem_head? hfront)
    obtain ⟨-, rfl⟩ := mem_below_iff.1 hc
    exact Nat.le_succ _

theorem contains (h : Lined F n queue) {c : Cursor} (hc : c ∈ queue) : F.contains c.node = true :=
  hF.contains_of_mem_queued hn (h.sublist.subset (List.mem_map_of_mem hc))

theorem nodup (h : Lined F n queue) : (queue.map Cursor.node).Nodup := by
  have hnodup := (Tree.queued_singleton_perm (F.shape n)).nodup_iff.2 (hF.nodup_preorder_shape hn)
  exact hnodup.sublist h.sublist

theorem sorted (h : Lined F n queue) :
    (queue.map Cursor.node).Pairwise fun x y => F.levelOf x ≤ F.levelOf y := by
  have hgraded := hF.graded_shape hn
  exact (Tree.pairwise_queued (by simpa using hgraded)).sublist h.sublist

/-- A cursor that has run out leaves. The next one stands no higher up. -/
theorem of_spent (h : Lined F n (front :: queue)) (hspent : front.Spent F) : Lined F n queue where
  seen := by
    obtain ⟨seen, hsub, hall⟩ := h.seen
    rw [queueRest_of_spent hspent] at hall
    exact ⟨seen, (List.sublist_cons_self ..).trans hsub, hall⟩
  inner := fun c hc => h.inner c (List.mem_cons_of_mem _ hc)
  unmoved := fun c hc => h.unmoved c (List.mem_of_mem_tail hc)
  adjacent := by
    intro next hnext c hc
    have hle := (List.pairwise_cons.1 (h.sorted hF hn)).1 next.node
      (List.mem_map_of_mem (List.mem_of_mem_head? hnext))
    have hbound := h.adjacent front rfl c (List.mem_cons_of_mem _ hc)
    omega

/-- **A queue goes through two adjacent levels at most**, the nodes of each from left to right. -/
theorem exists_levels (h : Lined F n queue) :
    ∃ k upper lower, queue.map Cursor.node = upper ++ lower ∧
      (∀ x ∈ upper, F.levelOf x = k) ∧ (∀ x ∈ lower, F.levelOf x = k + 1) ∧
      upper.Sublist (F.shape n).preorder ∧ lower.Sublist (F.shape n).preorder := by
  have hsorted := h.sorted hF hn
  obtain ⟨k, hkeys⟩ : ∃ k, ∀ x ∈ queue.map Cursor.node, k ≤ F.levelOf x ∧ F.levelOf x ≤ k + 1 := by
    cases queue with
    | nil => exact ⟨0, nofun⟩
    | cons front rest =>
      refine ⟨F.levelOf front.node, fun x hx => ⟨Tree.key_head_le F.levelOf hsorted hx, ?_⟩⟩
      obtain ⟨c, hc, rfl⟩ := List.mem_map.1 hx
      exact h.adjacent front rfl c hc
  have hgraded := hF.graded_shape hn
  -- on each level breadth-first order is the preorder
  have hlevel : ∀ j, ((queue.map Cursor.node).filter (F.levelOf · == j)).Sublist (F.shape n).preorder := by
    intro j
    have hsub := h.sublist.filter (F.levelOf · == j)
    rw [Tree.filter_queued (k := F.levelOf n) (by simpa using hgraded) j, List.flatMap_singleton] at hsub
    exact hsub.trans List.filter_sublist
  have hkey : ∀ j, ∀ x ∈ (queue.map Cursor.node).filter (F.levelOf · == j), F.levelOf x = j := fun j x hx =>
    beq_iff_eq.1 (List.mem_filter.1 hx).2
  exact ⟨k, _, _, Tree.eq_filter_append_filter F.levelOf hsorted hkeys, hkey k, hkey (k + 1), hlevel k,
    hlevel (k + 1)⟩

end

end Lined

/-! ## Steps

`G` is the forest that a step goes over, which has the links of `F`. -/

/-- What a walker in postorder from `n` can hold. -/
inductive InPostorder (F : Forest α) (n : NodeId) : Course → Prop where
  | going {stack : List Cursor} (hdown : LeadsDown F n stack) : InPostorder F n (postorder stack)

/-- What a walker in preorder from `n` can hold, before its first step and after it. -/
inductive InPreorder (F : Forest α) (n : NodeId) : Course → Prop where
  | start : InPreorder F n (preorder (some n) [])
  | going {stack : List Cursor} (hdown : LeadsDown F n stack) (hinner : ∀ c ∈ stack, F.childrenOf c.node ≠ []) :
      InPreorder F n (preorder none stack)

/-- What a walker in breadth-first order from `n` can hold, before its first step and after it. -/
inductive InBreadthFirst (F : Forest α) (n : NodeId) : Course → Prop where
  | start : InBreadthFirst F n (breadthFirst (some n) [])
  | going {queue : List Cursor} (hlined : Lined F n queue) : InBreadthFirst F n (breadthFirst none queue)

section

variable (hF : F.WellFormed) (hn : F.contains n = true) (hG : SameLinks F G)

include hG in
theorem below_eq (x : NodeId) : below G x = below F x := by
  rw [below, below, hG.childrenOf_eq]

include hG in
/-- A cursor for a node of `F` has run out on both forests, or has the same next child there. -/
theorem cursor_cases {c : Cursor} (hc : F.contains c.node = true) :
    c.Spent F ∧ c.Spent G ∨
      ∃ child, (F.childrenOf c.node)[c.next]? = some child ∧ (G.childrenOf c.node)[c.next]? = some child := by
  rw [Cursor.Spent, Cursor.Spent, hG.childrenOf_eq]
  cases hchild : (F.childrenOf c.node)[c.next]? with
  | none => exact .inl ⟨⟨hc, rfl⟩, hG.contains _ hc, rfl⟩
  | some child => exact .inr ⟨child, rfl, rfl⟩

include hF hn hG

/-- A step in postorder over `G` comes through stacks that lead down on `F`, and takes away the cursor on top of the
    last one, which has run out. -/
theorem LeadsDown.postorderNext_eq {top : Cursor} {stack : List Cursor} (h : LeadsDown F n (top :: stack)) :
    ∃ deepest rest, Turns F (top :: stack) (deepest :: rest) ∧ deepest.Spent F ∧
      postorderNext G G.size (top :: stack) = (.ok (some deepest.node), rest) := by
  have htop := h.contains_top hF hn
  obtain ⟨deepest, rest, hturns, hspent, hnext⟩ :=
    exists_turns hG.wellFormed G.size top stack (hG.contains _ htop) (by omega)
  have hturn : Turn G ≤ Turn F := by
    rintro _ _ ⟨hchild⟩
    rw [hG.childrenOf_eq] at hchild
    exact .down hchild
  have hsame : Turns F (top :: stack) (deepest :: rest) := Relation.ReflTransGen.mono hturn _ _ hturns
  have hlive := (h.of_turns hsame).contains_top hF hn
  rw [Cursor.Spent, hG.childrenOf_eq] at hspent
  exact ⟨deepest, rest, hsame, ⟨hlive, hspent.2⟩, hnext⟩

theorem InPostorder.next {course : Course} (h : InPostorder F n course) : InPostorder F n (course.next G).2 := by
  cases h with
  | @going stack hdown =>
    cases stack with
    | nil =>
      rw [Course.next, postorderNext]
      exact .going .nil
    | cons top stack =>
      obtain ⟨deepest, rest, hturns, -, hnext⟩ := hdown.postorderNext_eq hF hn hG
      rw [Course.next, hnext]
      exact .going (hdown.of_turns hturns).of_cons

/-- A step in preorder over `G` drops cursors that have run out, and then goes on by one child. -/
theorem LeadsDown.preorderNext {stack : List Cursor} (h : LeadsDown F n stack)
    (hinner : ∀ c ∈ stack, F.childrenOf c.node ≠ []) :
    LeadsDown F n (preorderNext G stack).2 ∧ ∀ c ∈ (preorderNext G stack).2, F.childrenOf c.node ≠ [] := by
  induction stack with
  | nil => exact ⟨h, hinner⟩
  | cons top rest ih =>
    rw [List.forall_mem_cons] at hinner
    rcases cursor_cases hG (h.contains_top hF hn) with ⟨-, hspent⟩ | ⟨child, hchild, hchild'⟩
    · rw [preorderNext_of_spent hspent]
      exact ih h.of_cons hinner.2
    · rw [preorderNext_of_child hG.wellFormed hchild', below_eq hG]
      exact ⟨h.of_child hchild, List.forall_mem_append.2 ⟨inner_of_mem_below F child, List.forall_mem_cons.2 hinner⟩⟩

theorem InPreorder.next {course : Course} (h : InPreorder F n course) : InPreorder F n (course.next G).2 := by
  cases h with
  | start =>
    rw [Course.next, begin_eq (hG.contains n hn), below_eq hG]
    dsimp only
    rw [List.append_nil]
    exact .going (.of_begin F n) (inner_of_mem_below F n)
  | going hdown hinner =>
    obtain ⟨hdown', hinner'⟩ := hdown.preorderNext hF hn hG hinner
    exact .going hdown' hinner'

/-- So does a step in breadth-first order, at the front of the queue. -/
theorem Lined.breadthFirstNext {queue : List Cursor} (h : Lined F n queue) :
    Lined F n (breadthFirstNext G queue).2 := by
  induction queue with
  | nil => exact h
  | cons front rest ih =>
    rcases cursor_cases hG (h.contains hF hn (List.mem_cons_self ..)) with ⟨hspent, hspent'⟩ | ⟨child, hchild, hchild'⟩
    · rw [breadthFirstNext_of_spent hspent']
      exact ih (h.of_spent hF hn hspent)
    · rw [breadthFirstNext_of_child hG.wellFormed hchild', below_eq hG]
      exact h.of_child hF hchild

theorem InBreadthFirst.next {course : Course} (h : InBreadthFirst F n course) :
    InBreadthFirst F n (course.next G).2 := by
  cases h with
  | start =>
    rw [Course.next, begin_eq (hG.contains n hn), below_eq hG]
    exact .going (.of_begin hF hn)
  | going hlined => exact .going (hlined.breadthFirstNext hF hn hG)

end

end Course

/-! ## Sessions -/

namespace Session

open Course

section

variable {g : UInt64} {l : List NodeId} {s : Session α}

/-- Before the first structural write a step of the session is one of the course. -/
theorem Good.step_eq (h : Good g l s) (hbumps : s.bumps = 0) :
    s.answer = (s.walker.course.next s.forest).1 ∧
      (s.next .step).walker.course = (s.walker.course.next s.forest).2 := by
  have hnext := Walker.next_of_stamp (h.stamp_eq hbumps)
  exact ⟨congrArg Prod.fst hnext, congrArg (·.2.course) hnext⟩

variable {P : Course → Prop}
  (hP : ∀ {G : Forest α} {course : Course}, SameLinks F G → P course → P (course.next G).2)

include hP

/-- What steps keep over all forests with the links of `F`, a session keeps until a structural write is counted. -/
theorem Good.kept_of_run (h : Good g l s) (hbefore : s.bumps = 0 → SameLinks F s.forest ∧ P s.walker.course)
    (events : List (Event α)) (hbumps : (s.run events).bumps = 0) :
    SameLinks F (s.run events).forest ∧ P (s.run events).walker.course := by
  induction events generalizing s with
  | nil => exact hbefore hbumps
  | cons event events ih =>
    refine ih (h.next event) ?_ hbumps
    intro hcount
    cases event with
    | step =>
      obtain ⟨hlinks, hcourse⟩ := hbefore hcount
      rw [(h.step_eq hcount).2]
      exact ⟨hlinks, hP hlinks hcourse⟩
    | call call =>
      -- there is no negative number of writes, so the call counts none either
      obtain ⟨hzero, hquiet⟩ := Nat.add_eq_zero_iff.1 (show s.bumps + call.bumps s.forest = 0 from hcount)
      obtain ⟨hlinks, hcourse⟩ := hbefore hzero
      exact ⟨hlinks.trans (.after h.reachable.wellFormed hquiet), hcourse⟩

/-- So does the session in which a walker has just been made. -/
theorem kept_of_new (hF : F.Reachable) {w : Walker} (hw : Walker.New F w l) (hstart : P w.course)
    (events : List (Event α)) (hbumps : ((start F w).run events).bumps = 0) :
    SameLinks F ((start F w).run events).forest ∧ P ((start F w).run events).walker.course :=
  (good_start hF hw).kept_of_run hP (fun _ => ⟨.refl hF.wellFormed, hstart⟩) events hbumps

end

/-- **Where the cursors of a walker stand**, after any steps and calls among which no structural write was counted. In
    postorder the stack leads down from `n`, and so do all stacks that the next step comes through, from which it yields
    the node on top of the last; none of them is longer than the depth of `n` and one. In preorder the stack leads down
    through inner nodes, and is no longer than the depth of `n`. In breadth-first order the queue holds inner nodes,
    none twice, from two adjacent levels at most, on each level from left to right, and no cursor behind the front has
    been moved. -/
theorem cursors_of_run (hF : F.Reachable) (hn : F.contains n = true) :
    ∃ post pre wide depth listing,
      Walker.postorder F n = .ok post ∧ Walker.preorder F n = .ok pre ∧ Walker.breadthFirst F n = .ok wide ∧
      F.depth n = .ok depth ∧ F.preorder n = .ok listing ∧ ∀ events,
      (let s := (start F post).run events;
        s.bumps = 0 → ∃ stack, s.walker.course = .postorder stack ∧
          (∀ stack', Turns F stack stack' → LeadsDown F n stack' ∧ stack'.length ≤ depth + 1) ∧
          (stack ≠ [] → ∃ deepest rest, Turns F stack (deepest :: rest) ∧ deepest.Spent F ∧
            s.answer = .ok (some deepest.node) ∧ (s.next .step).walker.course = .postorder rest)) ∧
      (let s := (start F pre).run events;
        s.bumps = 0 → ∃ first stack, s.walker.course = .preorder first stack ∧ LeadsDown F n stack ∧
          (∀ c ∈ stack, F.childrenOf c.node ≠ []) ∧ stack.length ≤ depth) ∧
      (let s := (start F wide).run events;
        s.bumps = 0 → ∃ first queue, s.walker.course = .breadthFirst first queue ∧
          (queue.map Cursor.node).Nodup ∧ (∀ c ∈ queue, F.childrenOf c.node ≠ []) ∧ (∀ c ∈ queue.tail, c.next = 0) ∧
          ∃ k upper lower, queue.map Cursor.node = upper ++ lower ∧ (∀ x ∈ upper, F.level x = .ok k) ∧
            (∀ x ∈ lower, F.level x = .ok (k + 1)) ∧ upper.Sublist listing ∧ lower.Sublist listing) := by
  have hwf := hF.wellFormed
  have hpost := Walker.postorder_eq_ok_iff.2 ⟨hn, rfl⟩
  have hpre := Walker.preorder_eq_ok_iff.2 ⟨hn, rfl⟩
  have hwide := Walker.breadthFirst_eq_ok_iff.2 ⟨hn, rfl⟩
  refine ⟨_, _, _, _, _, hpost, hpre, hwide, hwf.depth_eq hn, (preorder_eq hwf hn).1, fun events => ⟨?_, ?_, ?_⟩⟩
  · intro s hbumps
    have hgood : Good F.generation _ s := (good_start hF (.postorder hpost)).run events
    obtain ⟨hlinks, hcourse⟩ : SameLinks F s.forest ∧ InPostorder F n s.walker.course :=
      kept_of_new (fun hG h => h.next hwf hn hG) hF (.postorder hpost) (.going (.singleton F n 0)) events hbumps
    obtain ⟨hanswer, hafter⟩ := hgood.step_eq hbumps
    rw [hanswer, hafter]
    generalize s.walker.course = course at hcourse ⊢
    cases hcourse with
    | @going stack hdown =>
      refine ⟨stack, rfl, ?_, ?_⟩
      · intro stack' hturns
        have hdown' := hdown.of_turns hturns
        exact ⟨hdown', hdown'.length_le hwf hn⟩
      · intro hstack
        obtain ⟨top, below, rfl⟩ := List.exists_cons_of_ne_nil hstack
        obtain ⟨deepest, rest, hturns, hspent, hnext⟩ := hdown.postorderNext_eq hwf hn hlinks
        refine ⟨deepest, rest, hturns, hspent, ?_, ?_⟩
        · rw [Course.next, hnext]
        · rw [Course.next, hnext]
  · intro s hbumps
    obtain ⟨-, hcourse⟩ : SameLinks F s.forest ∧ InPreorder F n s.walker.course :=
      kept_of_new (fun hG h => h.next hwf hn hG) hF (.preorder hpre) .start events hbumps
    generalize s.walker.course = course at hcourse ⊢
    cases hcourse with
    | start => exact ⟨_, [], rfl, .nil, List.forall_mem_nil _, Nat.zero_le _⟩
    | @going stack hdown hinner => exact ⟨_, stack, rfl, hdown, hinner, hdown.length_le_of_inner hwf hn hinner⟩
  · intro s hbumps
    obtain ⟨-, hcourse⟩ : SameLinks F s.forest ∧ InBreadthFirst F n s.walker.course :=
      kept_of_new (fun hG h => h.next hwf hn hG) hF (.breadthFirst hwide) .start events hbumps
    generalize s.walker.course = course at hcourse ⊢
    cases hcourse with
    | start =>
      have hnone {β : Type} {p : β → Prop} : ∀ x ∈ ([] : List β), p x := List.forall_mem_nil p
      exact ⟨_, [], rfl, .nil, hnone, hnone, 0, [], [], rfl, hnone, hnone, List.nil_sublist _, List.nil_sublist _⟩
    | @going queue hlined =>
      obtain ⟨k, upper, lower, hqueue, hupper, hlower, hleft, hright⟩ := hlined.exists_levels hwf hn
      refine ⟨_, queue, rfl, hlined.nodup hwf hn, hlined.inner, hlined.unmoved, k, upper, lower, hqueue, ?_, ?_,
        hleft, hright⟩
      · intro x hx
        rw [hwf.level_eq (hwf.contains_of_mem_shape hn (hleft.subset hx)), hupper x hx]
      · intro x hx
        rw [hwf.level_eq (hwf.contains_of_mem_shape hn (hright.subset hx)), hlower x hx]

/-- On a node with two children, the first of which has one. The first step in postorder comes through a stack of three,
    after two steps in preorder there is one of two, and after three steps in breadth-first order the queue holds the
    top, moved to its end, and its first child. -/
theorem cursors_of_run_of_four :
    let F := (empty : Forest Nat).afterAll
      [.create 7, .create 8, .create 9, .create 6, .add ⟨0, 0⟩ ⟨1, 0⟩, .add ⟨0, 0⟩ ⟨2, 0⟩, .add ⟨1, 0⟩ ⟨3, 0⟩]
    F.Reachable ∧ F.contains ⟨0, 0⟩ = true ∧ F.depth ⟨0, 0⟩ = .ok 2 ∧
      LeadsDown F ⟨0, 0⟩ [⟨⟨3, 0⟩, 0⟩, ⟨⟨1, 0⟩, 1⟩, ⟨⟨0, 0⟩, 1⟩] ∧
      LeadsDown F ⟨0, 0⟩ [⟨⟨1, 0⟩, 0⟩, ⟨⟨0, 0⟩, 1⟩] ∧
      ∃ wide, Walker.breadthFirst F ⟨0, 0⟩ = .ok wide ∧
        ((start F wide).run [.step, .step, .step]).walker.course = .breadthFirst none [⟨⟨0, 0⟩, 2⟩, ⟨⟨1, 0⟩, 0⟩] ∧
        F.childrenOf ⟨1, 0⟩ ≠ [] := by
  intro F
  have hF : F.Reachable := ⟨_, rfl⟩
  have hn : F.contains ⟨0, 0⟩ = true := by decide
  obtain ⟨post, pre, wide, depth, listing, hpost, hpre, hwide, hdepth, hlisting, h⟩ := cursors_of_run hF hn
  obtain ⟨-, rfl⟩ := Walker.postorder_eq_ok_iff.1 hpost
  obtain ⟨-, rfl⟩ := Walker.preorder_eq_ok_iff.1 hpre
  obtain ⟨-, rfl⟩ := Walker.breadthFirst_eq_ok_iff.1 hwide
  obtain rfl : depth = 2 := Except.ok.inj (hdepth.symm.trans rfl)
  obtain ⟨stack, hstack, hturns, -⟩ := (h []).1 rfl
  obtain rfl := Course.postorder.inj hstack
  have hdown : Turns F [⟨⟨0, 0⟩, 0⟩] [⟨⟨3, 0⟩, 0⟩, ⟨⟨1, 0⟩, 1⟩, ⟨⟨0, 0⟩, 1⟩] :=
    (Relation.ReflTransGen.single (.down (by decide))).tail (.down (by decide))
  have hsecond : ((start F ⟨F.generation, .preorder (some ⟨0, 0⟩) []⟩).run [.step, .step]).walker.course
      = .preorder none [⟨⟨1, 0⟩, 0⟩, ⟨⟨0, 0⟩, 1⟩] := by decide
  obtain ⟨first, stack, hstack, hleads, -⟩ := (h [.step, .step]).2.1 (by decide)
  obtain ⟨-, rfl⟩ := Course.preorder.inj (hsecond.symm.trans hstack)
  have hthird : ((start F ⟨F.generation, .breadthFirst (some ⟨0, 0⟩) []⟩).run [.step, .step, .step]).walker.course
      = .breadthFirst none [⟨⟨0, 0⟩, 2⟩, ⟨⟨1, 0⟩, 0⟩] := by decide
  obtain ⟨first, queue, hqueue, -, hinner, -⟩ := (h [.step, .step, .step]).2.2 (by decide)
  obtain ⟨-, rfl⟩ := Course.breadthFirst.inj (hthird.symm.trans hqueue)
  exact ⟨hF, hn, hdepth, (hturns _ hdown).1, hleads, _, hwide, hthird, hinner ⟨⟨1, 0⟩, 0⟩ (by decide)⟩

end Session

end Grove
