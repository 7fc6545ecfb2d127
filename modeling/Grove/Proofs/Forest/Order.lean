import Grove.Forest.Order
import Grove.Proofs.Forest.Surroundings
import Grove.Proofs.Tree.Measures
import Grove.Proofs.Walker.Traversal

/-!
# `Proofs.Forest.Order` — the answers about reading order

Leaves, depth and neighbours of a node are found by going up and down along links, and on a well-formed forest each
of them can be read off the preorder. Going down gains a level with every hop, and no level is beyond the forest's
size, so it ends at a leaf (`exists_descent`); along first children this is the first leaf listed below the node, and
along last children the last node listed there. Going up passes the places that are listed around the node (`Around`),
and turns aside where there is something on the side asked for.

The two checks of answers that are made on the way hold: the node that breadth-first order visits last is not above
the first (`depth_eq`), and a subtree has a leaf (`leafCount_eq_ok`).
-/

namespace Grove.Forest

variable {α : Type} {F : Forest α} {n : NodeId}

/-! ## Descending -/

/-- Going down from `n`, by a choice among the children at each node, ends at `leaf`. -/
inductive Descent (F : Forest α) (pick : List NodeId → Option NodeId) : NodeId → NodeId → Prop where
  | leaf {n : NodeId} (hend : pick (F.childrenOf n) = none) : Descent F pick n n
  | hop {n c leaf : NodeId} (hpick : pick (F.childrenOf n) = some c) (hdown : Descent F pick c leaf) :
      Descent F pick n leaf

namespace WellFormed

/-- Each hop is one level down, so the fuel lasts. -/
theorem exists_descent (hF : F.WellFormed) {descend : Nat → NodeId → Except Failure NodeId}
    (pick : List NodeId → Option NodeId) (hpick : ∀ l, ∀ c ∈ pick l, c ∈ l)
    (hstep : ∀ fuel n, F.contains n = true → descend (fuel + 1) n = match pick (F.childrenOf n) with
      | none => .ok n
      | some c => descend fuel c)
    (fuel : Nat) (hn : F.contains n = true) (hfuel : F.size ≤ fuel + F.levelOf n) :
    ∃ leaf, descend fuel n = .ok leaf ∧ F.Descent pick n leaf := by
  induction fuel generalizing n with
  | zero =>
    have hlt := hF.levelOf_lt_size hn
    omega
  | succ fuel ih =>
    rw [hstep fuel n hn]
    cases hchild : pick (F.childrenOf n) with
    | none => exact ⟨n, rfl, .leaf hchild⟩
    | some c =>
      have hlisted := hpick _ c hchild
      have hlevel := hF.levelOf_child ((hF.mem_childrenOf_iff n c).1 hlisted)
      obtain ⟨leaf, hleaf, hdown⟩ := ih (hF.contains_child hlisted) (by omega)
      exact ⟨leaf, hleaf, .hop hchild hdown⟩

theorem exists_firstLeaf (hF : F.WellFormed) (hn : F.contains n = true) :
    ∃ leaf, F.firstLeaf n = .ok leaf ∧ F.Descent List.head? n leaf := by
  refine hF.exists_descent List.head? (fun _ _ => List.mem_of_mem_head?) ?_ F.size hn (by omega)
  intro fuel m hm
  rw [firstLeafFrom, children_eq_ok hm]
  rfl

theorem exists_lastLeaf (hF : F.WellFormed) (hn : F.contains n = true) :
    ∃ leaf, F.lastLeaf n = .ok leaf ∧ F.Descent List.getLast? n leaf := by
  refine hF.exists_descent List.getLast? (fun _ _ => List.mem_of_mem_getLast?) ?_ F.size hn (by omega)
  intro fuel m hm
  rw [lastLeafFrom, children_eq_ok hm]
  rfl

end WellFormed

/-! ## The leaves of a listing -/

/-- The leaves among the nodes listed. -/
def leavesIn (F : Forest α) (l : List NodeId) : List NodeId :=
  l.filter fun x => (F.childrenOf x).isEmpty

@[simp] theorem leavesIn_append (l m : List NodeId) : F.leavesIn (l ++ m) = F.leavesIn l ++ F.leavesIn m :=
  List.filter_append ..

theorem leavesIn_cons_of_inner {l : List NodeId} (hinner : F.childrenOf n ≠ []) :
    F.leavesIn (n :: l) = F.leavesIn l :=
  List.filter_cons_of_neg (by simpa using hinner)

theorem leavesIn_cons_of_leaf {l : List NodeId} (hleaf : F.childrenOf n = []) :
    F.leavesIn (n :: l) = n :: F.leavesIn l :=
  List.filter_cons_of_pos (by simpa using hleaf)

theorem mem_leavesIn_iff {l : List NodeId} : n ∈ F.leavesIn l ↔ n ∈ l ∧ F.childrenOf n = [] := by
  rw [leavesIn, List.mem_filter, List.isEmpty_iff]

/-- Along first children one comes to the first leaf. -/
theorem Descent.head?_leavesIn (hF : F.WellFormed) {leaf : NodeId} (h : F.Descent List.head? n leaf)
    (hn : F.contains n = true) : (F.leavesIn (F.shape n).preorder).head? = some leaf := by
  induction h with
  | leaf hend =>
    rw [List.head?_eq_none_iff] at hend
    rw [hF.preorder_shape hn, leavesIn_cons_of_leaf hend, List.head?_cons]
  | hop hpick _ ih =>
    obtain ⟨rest, hchildren⟩ := List.head?_eq_some_iff.1 hpick
    have hc := hF.contains_child (List.mem_of_mem_head? hpick)
    rw [hF.preorder_shape hn, leavesIn_cons_of_inner (by simp [hchildren]), hchildren, List.flatMap_cons,
      leavesIn_append, List.head?_append, ih hc, Option.some_or]

/-- Along last children one comes to the last node. -/
theorem Descent.getLast?_preorder (hF : F.WellFormed) {leaf : NodeId} (h : F.Descent List.getLast? n leaf)
    (hn : F.contains n = true) : (F.shape n).preorder.getLast? = some leaf := by
  induction h with
  | leaf hend =>
    rw [List.getLast?_eq_none_iff] at hend
    rw [hF.preorder_shape hn, hend]
    rfl
  | hop hpick _ ih =>
    obtain ⟨front, hchildren⟩ := List.getLast?_eq_some_iff.1 hpick
    have hc := hF.contains_child (List.mem_of_getLast? hpick)
    rw [hF.preorder_shape hn, hchildren, List.flatMap_append, List.flatMap_singleton, ← List.cons_append,
      List.getLast?_append, ih hc, Option.some_or]

/-- Which is a leaf. -/
theorem Descent.childrenOf_eq {leaf : NodeId} (h : F.Descent List.getLast? n leaf) : F.childrenOf leaf = [] := by
  induction h with
  | leaf hend => exact List.getLast?_eq_none_iff.1 hend
  | hop _ _ ih => exact ih

theorem Descent.getLast?_leavesIn (hF : F.WellFormed) {leaf : NodeId} (h : F.Descent List.getLast? n leaf)
    (hn : F.contains n = true) : (F.leavesIn (F.shape n).preorder).getLast? = some leaf := by
  obtain ⟨front, hfront⟩ := List.getLast?_eq_some_iff.1 (h.getLast?_preorder hF hn)
  rw [hfront, leavesIn_append, leavesIn_cons_of_leaf h.childrenOf_eq, List.getLast?_append]
  rfl

namespace WellFormed

/-! ## Depth and number of leaves -/

theorem mem_queued_shape_iff (hF : F.WellFormed) (hn : F.contains n = true) (x : NodeId) :
    x ∈ Tree.queued [F.shape n] ↔ F.Ancestor n x := by
  rw [(Tree.queued_singleton_perm (F.shape n)).mem_iff, hF.mem_preorder_shape_iff hn]

theorem contains_of_mem_queued (hF : F.WellFormed) (hn : F.contains n = true) {x : NodeId}
    (hx : x ∈ Tree.queued [F.shape n]) : F.contains x = true :=
  contains_of_ancestor ((hF.mem_queued_shape_iff hn x).1 hx) hn

/-- The node that breadth-first order visits last is as far below `n` as the tree is high. -/
theorem exists_last_queued (hF : F.WellFormed) (hn : F.contains n = true) :
    ∃ last, (Tree.queued [F.shape n]).getLast? = some last ∧ F.contains last = true ∧
      F.levelOf last = F.levelOf n + (F.shape n).height := by
  obtain ⟨last, hlast⟩ : ∃ last, (Tree.queued [F.shape n]).getLast? = some last := by
    rw [Tree.queued_cons]
    exact ⟨_, List.getLast?_eq_some_getLast (List.cons_ne_nil _ _)⟩
  exact ⟨last, hlast, hF.contains_of_mem_queued hn (List.mem_of_getLast? hlast),
    (hF.graded_shape hn).level_last_queued hlast⟩

/-- The depth of a node is the height of the tree below it. -/
theorem depth_eq (hF : F.WellFormed) (hn : F.contains n = true) : F.depth n = .ok (F.shape n).height := by
  obtain ⟨last, hlast, hlive, hlevel⟩ := hF.exists_last_queued hn
  rw [depth, (breadthFirst_eq hF hn).1]
  show (F.level ((Tree.queued [F.shape n]).getLast?.getD n) >>= fun bottom =>
    F.level n >>= fun top => descent n top bottom) = _
  rw [hlast, Option.getD_some, hF.level_eq hlive, hF.level_eq hn, hlevel]
  show descent n (F.levelOf n) (F.levelOf n + (F.shape n).height) = _
  rw [descent_of_le n (Nat.le_add_right _ _), Nat.add_sub_cancel_left]

theorem leavesAmong_eq_ok {l : List NodeId} (hl : ∀ x ∈ l, F.contains x = true) :
    F.leavesAmong l = .ok (F.leavesIn l).length := by
  induction l with
  | nil => rfl
  | cons x rest ih =>
    have hrest := ih fun y hy => hl y (List.mem_cons_of_mem _ hy)
    rw [leavesAmong, isLeaf_eq_ok (hl x (List.mem_cons_self ..)), hrest]
    cases hchildren : F.childrenOf x with
    | nil =>
      rw [leavesIn_cons_of_leaf hchildren]
      rfl
    | cons c cs =>
      rw [leavesIn_cons_of_inner (by simp [hchildren])]
      rfl

/-- The leaves of a subtree are counted, and there is one. -/
theorem leafCount_eq_ok (hF : F.WellFormed) (hn : F.contains n = true) :
    F.leafCount n = .ok (F.leavesIn (F.shape n).preorder).length := by
  have hperm := (Tree.queued_singleton_perm (F.shape n)).filter fun x => (F.childrenOf x).isEmpty
  obtain ⟨leaf, -, hdown⟩ := hF.exists_firstLeaf hn
  obtain ⟨rest, hrest⟩ := List.head?_eq_some_iff.1 (hdown.head?_leavesIn hF hn)
  rw [leafCount, (breadthFirst_eq hF hn).1]
  show (F.leavesAmong (Tree.queued [F.shape n]) >>= _) = _
  rw [leavesAmong_eq_ok fun x => hF.contains_of_mem_queued hn, leavesIn, hperm.length_eq]
  show (Except.ok (F.leavesIn (F.shape n).preorder).length >>= _) = _
  rw [hrest]
  rfl

end WellFormed

/-! ## Neighbours

`top` is the root of the tree, and `before` and `after` is what is listed around the subtree of `n` there. -/

namespace Around

variable {top : NodeId} {before after : List NodeId} (hF : F.WellFormed)

include hF

/-- **Climbing along the surroundings.** A climb that at each node ends with the answer read off what is around it, or
    else goes on to the parent, where the answer is the same, ends with this answer. -/
theorem climb_eq {go : Nat → NodeId → Except Failure (Option NodeId)}
    (answer : List NodeId → List NodeId → Option NodeId)
    (hend : ∀ fuel, F.contains top = true → go (fuel + 1) top = .ok (answer [] []))
    (hstep : ∀ fuel n p left right before after, F.childrenOf p = left ++ n :: right →
      go (fuel + 1) n = .ok (answer (before ++ p :: F.preorders left) (F.preorders right ++ after)) ∨
        go (fuel + 1) n = go fuel p ∧
          answer (before ++ p :: F.preorders left) (F.preorders right ++ after) = answer before after)
    (h : F.Around top n before after) (hn : F.contains n = true) :
    go F.size n = .ok (answer before after) := by
  -- each hop is one level up, so the fuel lasts
  suffices hfuel : ∀ fuel, F.levelOf n < fuel → go fuel n = .ok (answer before after) from
    hfuel F.size (hF.levelOf_lt_size hn)
  induction h with
  | top =>
    intro fuel hfuel
    obtain ⟨fuel, rfl⟩ := Nat.exists_eq_succ_of_ne_zero (Nat.ne_zero_of_lt hfuel)
    exact hend fuel hn
  | @child n p left right before after hchildren _ ih =>
    intro fuel hfuel
    obtain ⟨fuel, rfl⟩ := Nat.exists_eq_succ_of_ne_zero (Nat.ne_zero_of_lt hfuel)
    rcases hstep fuel n p left right before after hchildren with hfound | ⟨hup, hsame⟩
    · exact hfound
    · have hp := hF.parentOf_of_split hchildren
      have hlevel := hF.levelOf_child hp
      rw [hup, hsame]
      exact ih (hF.contains_parent hp) fuel (by omega)

variable (htop : F.parentOf top = none)

include htop

/-- The next leaf is the first one after the subtree. -/
theorem nextLeaf_eq (h : F.Around top n before after) (hn : F.contains n = true) :
    F.nextLeaf n = .ok (F.leavesIn after).head? := by
  refine h.climb_eq hF (fun _ after => (F.leavesIn after).head?) ?_ ?_ hn
  · intro fuel hlive
    rw [nextLeafFrom, parent_eq_ok hlive, htop]
    rfl
  · intro fuel n p left right before after hchildren
    have hp := hF.parentOf_of_split hchildren
    rw [nextLeafFrom, parent_eq_ok (contains_of_parentOf hp), hp]
    simp only [bind, Except.bind, hF.nextSibling_of_split hchildren]
    cases right with
    | nil => exact .inr ⟨rfl, rfl⟩
    | cons s rest =>
      have hs : F.contains s = true := hF.contains_child (p := p) (by simp [hchildren])
      obtain ⟨leaf, hleaf, hdown⟩ := hF.exists_firstLeaf hs
      refine .inl ?_
      simp [hleaf, hdown.head?_leavesIn hF hs, pure, Except.pure]

/-- The previous leaf is the last one before the subtree. -/
theorem previousLeaf_eq (h : F.Around top n before after) (hn : F.contains n = true) :
    F.previousLeaf n = .ok (F.leavesIn before).getLast? := by
  refine h.climb_eq hF (fun before _ => (F.leavesIn before).getLast?) ?_ ?_ hn
  · intro fuel hlive
    rw [previousLeafFrom, parent_eq_ok hlive, htop]
    rfl
  · intro fuel n p left right before after hchildren
    have hp := hF.parentOf_of_split hchildren
    have hinner : F.childrenOf p ≠ [] := by simp [hchildren]
    rw [previousLeafFrom, parent_eq_ok (contains_of_parentOf hp), hp, leavesIn_append,
      leavesIn_cons_of_inner hinner]
    simp only [bind, Except.bind, hF.previousSibling_of_split hchildren]
    rcases List.eq_nil_or_concat' left with rfl | ⟨front, s, rfl⟩
    · refine .inr ⟨rfl, ?_⟩
      simp [leavesIn]
    · have hs : F.contains s = true := hF.contains_child (p := p) (by simp [hchildren])
      obtain ⟨leaf, hleaf, hdown⟩ := hF.exists_lastLeaf hs
      refine .inl ?_
      simp [hleaf, hdown.getLast?_leavesIn hF hs, pure, Except.pure]

/-- The next node is the first one below, or else the first one after the subtree. -/
theorem nextNode_eq (h : F.Around top n before after) (hn : F.contains n = true) :
    F.nextNode n = .ok (F.preorders (F.childrenOf n) ++ after).head? := by
  rw [nextNode, children_eq_ok hn]
  cases hchildren : F.childrenOf n with
  | cons c rest =>
    have hc : F.contains c = true := hF.contains_child (p := n) (by simp [hchildren])
    rw [preorders_cons, hF.preorder_shape hc]
    rfl
  | nil =>
    refine h.climb_eq hF (fun _ after => after.head?) ?_ ?_ hn
    · intro fuel hlive
      rw [nextNodeFrom, hF.nextSibling_eq_ok hlive, parent_eq_ok hlive, htop]
      rfl
    · intro fuel n p left right before after hchildren
      have hp := hF.parentOf_of_split hchildren
      rw [nextNodeFrom, hF.nextSibling_of_split hchildren, parent_eq_ok (contains_of_parentOf hp), hp]
      cases right with
      | nil => exact .inr ⟨rfl, rfl⟩
      | cons s rest =>
        have hs : F.contains s = true := hF.contains_child (p := p) (by simp [hchildren])
        refine .inl ?_
        rw [preorders_cons, hF.preorder_shape hs]
        rfl

/-- The previous node is the last one before the subtree. -/
theorem previousNode_eq (h : F.Around top n before after) (hn : F.contains n = true) :
    F.previousNode n = .ok before.getLast? := by
  rw [previousNode, parent_eq_ok hn]
  cases h with
  | top =>
    rw [htop]
    rfl
  | @child _ p left right before after hchildren _ =>
    rw [hF.parentOf_of_split hchildren, hF.previousSibling_of_split hchildren]
    rcases List.eq_nil_or_concat' left with rfl | ⟨front, s, rfl⟩
    · simp [bind, Except.bind, pure, Except.pure]
    · have hs : F.contains s = true := hF.contains_child (p := p) (by simp [hchildren])
      obtain ⟨leaf, hleaf, hdown⟩ := hF.exists_lastLeaf hs
      have hlast : (before ++ p :: F.preorders (front ++ [s])).getLast? = some leaf := by
        rw [preorders_append, preorders_cons, preorders_nil, List.append_nil, ← List.cons_append,
          ← List.append_assoc, List.getLast?_append, hdown.getLast?_preorder hF hs, Option.some_or]
      rw [hlast, List.getLast?_concat]
      simp only [bind, Except.bind, hleaf]
      rfl

end Around

end Grove.Forest
