import Grove.Proofs.Tree.Levels
import Mathlib.Algebra.GroupWithZero.Nat

/-!
# `Proofs.Tree.Measures` — height and leaves of a tree

`height` and `leaves` are defined by recursion on the tree. A tree has no more leaves than the nodes that one longest
way down leaves over (`leaves_add_height_le`): each node on it but the last has some leaf below it, and that is the
leaf of a node further down.

The height is the difference between the levels of the deepest node and the top, for any numbering of the levels,
and the deepest node is the one that breadth-first order lists last (`Graded.level_last_queued`).
-/

namespace Grove.Tree

variable {α β : Type}

/-! ## Height and leaves -/

mutual

/-- The number of steps on the longest way down; 0 for a leaf. -/
def height : Tree α → Nat
  | node _ ts => heightBelow ts

/-- The height of a node that has these subtrees. -/
def heightBelow : List (Tree α) → Nat
  | [] => 0
  | t :: rest => max (height t + 1) (heightBelow rest)

end

mutual

/-- The number of nodes without subtrees. -/
def leaves : Tree α → Nat
  | node _ [] => 1
  | node _ (t :: rest) => leaves t + leavesOfAll rest

/-- The number of leaves of trees in a row. -/
def leavesOfAll : List (Tree α) → Nat
  | [] => 0
  | t :: rest => leaves t + leavesOfAll rest

end

theorem height_lt_of_mem {ts : List (Tree α)} {t : Tree α} (ht : t ∈ ts) : t.height < heightBelow ts := by
  induction ts with
  | nil => cases ht
  | cons u rest ih =>
    rw [heightBelow]
    rcases List.mem_cons.1 ht with rfl | ht
    · omega
    · have hlt := ih ht
      omega

theorem exists_height_of_ne_nil {ts : List (Tree α)} (hts : ts ≠ []) : ∃ t ∈ ts, heightBelow ts = t.height + 1 := by
  induction ts with
  | nil => exact absurd rfl hts
  | cons u rest ih =>
    rw [heightBelow]
    by_cases hle : heightBelow rest ≤ u.height + 1
    · exact ⟨u, List.mem_cons_self .., Nat.max_eq_left hle⟩
    · -- the highest of the others is higher, so there are others
      have hrest : rest ≠ [] := by
        rintro rfl
        rw [heightBelow] at hle
        omega
      obtain ⟨t, ht, heq⟩ := ih hrest
      exact ⟨t, List.mem_cons_of_mem u ht, by omega⟩

/-- The height above trees in a row is one more than the greatest of their heights. -/
theorem exists_max?_height {ts : List (Tree α)} (hts : ts ≠ []) :
    ∃ greatest, (ts.map height).max? = some greatest ∧ heightBelow ts = greatest + 1 := by
  obtain ⟨t, ht, heq⟩ := exists_height_of_ne_nil hts
  refine ⟨t.height, List.max?_eq_some_iff.2 ⟨List.mem_map_of_mem ht, ?_⟩, heq⟩
  intro h hmem
  obtain ⟨u, hu, rfl⟩ := List.mem_map.1 hmem
  have hlt := height_lt_of_mem hu
  omega

theorem leavesOfAll_eq (ts : List (Tree α)) : leavesOfAll ts = (ts.map leaves).sum := by
  induction ts with
  | nil => rfl
  | cons t rest ih => rw [leavesOfAll, ih, List.map_cons, List.sum_cons]

theorem leaves_node_of_ne_nil (v : α) {ts : List (Tree α)} (hts : ts ≠ []) :
    (node v ts).leaves = (ts.map leaves).sum := by
  obtain ⟨t, rest, rfl⟩ := List.exists_cons_of_ne_nil hts
  rw [leaves, leavesOfAll_eq, List.map_cons, List.sum_cons]

theorem leaves_pos (t : Tree α) : 1 ≤ t.leaves := by
  induction t with
  | node v ts ih =>
    cases ts with
    | nil => exact Nat.le_refl 1
    | cons t rest =>
      have ht := ih t (List.mem_cons_self ..)
      rw [leaves]
      omega

/-- Trees in a row: one of them has the longest way down, and there are no more leaves than nodes in the others. -/
theorem leavesOfAll_add_heightBelow_le {ts : List (Tree α)}
    (h : ∀ t ∈ ts, t.leaves + t.height ≤ t.preorder.length) :
    leavesOfAll ts ≤ (ts.flatMap preorder).length ∧
      leavesOfAll ts + heightBelow ts ≤ (ts.flatMap preorder).length + 1 := by
  induction ts with
  | nil => simp [leavesOfAll, heightBelow]
  | cons t rest ih =>
    obtain ⟨hleaves, hheight⟩ := ih fun u hu => h u (List.mem_cons_of_mem t hu)
    have ht := h t (List.mem_cons_self ..)
    rw [leavesOfAll, heightBelow, List.flatMap_cons, List.length_append]
    omega

/-- **The leaves of a tree** are no more than the nodes that one longest way down leaves over. -/
theorem leaves_add_height_le (t : Tree α) : t.leaves + t.height ≤ t.preorder.length := by
  induction t with
  | node v ts ih =>
    rw [preorder_node, List.length_cons]
    cases ts with
    | nil => simp [leaves, height, heightBelow]
    | cons t rest => exact (leavesOfAll_add_heightBelow_le ih).2

/-! ## Levels -/

variable {level : α → Nat} {k : Nat} {t : Tree α}

namespace Graded

theorem level_le (h : Graded level k t) {x : α} (hx : x ∈ t.preorder) : level x ≤ k + t.height := by
  induction t generalizing k with
  | node v ts ih =>
    cases h with
    | node htop hbelow =>
      rw [preorder_node, List.mem_cons, List.mem_flatMap] at hx
      rcases hx with rfl | ⟨u, hu, hx⟩
      · omega
      · have hle := ih u hu (hbelow u hu) hx
        have hlt := height_lt_of_mem hu
        rw [height]
        omega

theorem exists_level_eq (h : Graded level k t) : ∃ x ∈ t.preorder, level x = k + t.height := by
  induction t generalizing k with
  | node v ts ih =>
    cases h with
    | node htop hbelow =>
      by_cases hts : ts = []
      · subst hts
        exact ⟨v, by simp, htop⟩
      · obtain ⟨u, hu, hheight⟩ := exists_height_of_ne_nil hts
        obtain ⟨x, hx, hlevel⟩ := ih u hu (hbelow u hu)
        refine ⟨x, ?_, ?_⟩
        · rw [preorder_node]
          exact List.mem_cons_of_mem v (List.mem_flatMap.2 ⟨u, hu, hx⟩)
        · rw [height, hheight]
          omega

/-- The deepest of the levels is as far down as the tree is high. -/
theorem max?_level (h : Graded level k t) : (t.preorder.map level).max? = some (k + t.height) := by
  obtain ⟨x, hx, hlevel⟩ := h.exists_level_eq
  refine List.max?_eq_some_iff.2 ⟨List.mem_map.2 ⟨x, hx, hlevel⟩, ?_⟩
  intro l hmem
  obtain ⟨y, hy, rfl⟩ := List.mem_map.1 hmem
  exact h.level_le hy

/-- **The node that breadth-first order lists last** is on the deepest level. -/
theorem level_last_queued (h : Graded level k t) {x : α} (hx : (queued [t]).getLast? = some x) :
    level x = k + t.height := by
  have hperm := queued_singleton_perm t
  have hgraded : ∀ u ∈ [t], Graded level k u := by
    simpa using h
  apply Nat.le_antisymm
  · exact h.level_le (hperm.mem_iff.1 (List.mem_of_mem_getLast? hx))
  · -- some node is on the deepest level, and no node comes after the last one
    obtain ⟨y, hy, hlevel⟩ := h.exists_level_eq
    rw [← hlevel]
    obtain ⟨front, hfront⟩ := List.getLast?_eq_some_iff.1 hx
    have hsorted := pairwise_queued hgraded
    have hmem := hperm.mem_iff.2 hy
    rw [hfront] at hsorted hmem
    rw [List.pairwise_append] at hsorted
    rcases List.mem_append.1 hmem with hmem | hmem
    · exact hsorted.2.2 y hmem x (List.mem_singleton_self x)
    · exact Nat.le_of_eq (congrArg level (List.mem_singleton.1 hmem))

end Graded

/-! ## Values replaced -/

section Map

variable (f : α → β)

theorem value_map (t : Tree α) : (t.map f).value = f t.value := by
  obtain ⟨v, ts⟩ := t
  rw [map_node]
  rfl

theorem children_map (t : Tree α) : (t.map f).children = t.children.map (map f) := by
  obtain ⟨v, ts⟩ := t
  rw [map_node]
  rfl

theorem preorder_map (t : Tree α) : (t.map f).preorder = t.preorder.map f := by
  induction t with
  | node v ts ih =>
    rw [map_node, preorder_node, preorder_node, List.map_cons, List.flatMap_map, List.map_flatMap]
    congr 1
    exact List.flatMap_congr ih

theorem postorder_map (t : Tree α) : (t.map f).postorder = t.postorder.map f := by
  induction t with
  | node v ts ih =>
    rw [map_node, postorder_node, postorder_node, List.map_append, List.flatMap_map, List.map_flatMap]
    congr 1
    exact List.flatMap_congr ih

theorem queued_map (ts : List (Tree α)) : queued (ts.map (map f)) = (queued ts).map f := by
  induction ts using level_induction with
  | nil => simp
  | level ts _ ih =>
    have hchildren : (ts.map (map f)).flatMap children = (ts.flatMap children).map (map f) := by
      rw [List.flatMap_map, List.map_flatMap]
      exact List.flatMap_congr fun t _ => children_map f t
    rw [queued_eq_level, queued_eq_level ts, hchildren, ih, List.map_append, List.map_map, List.map_map]
    congr 1
    exact List.map_congr_left fun t _ => value_map f t

theorem heightBelow_map {ts : List (Tree α)} (h : ∀ t ∈ ts, (t.map f).height = t.height) :
    heightBelow (ts.map (map f)) = heightBelow ts := by
  induction ts with
  | nil => rfl
  | cons t rest ih =>
    rw [List.map_cons, heightBelow, heightBelow, h t (List.mem_cons_self ..),
      ih fun u hu => h u (List.mem_cons_of_mem t hu)]

theorem height_map (t : Tree α) : (t.map f).height = t.height := by
  induction t with
  | node v ts ih =>
    rw [map_node, height, height]
    exact heightBelow_map f ih

theorem leaves_map (t : Tree α) : (t.map f).leaves = t.leaves := by
  induction t with
  | node v ts ih =>
    rw [map_node]
    by_cases hts : ts = []
    · subst hts
      rfl
    · rw [leaves_node_of_ne_nil v hts, leaves_node_of_ne_nil (f v) (by simpa using hts), List.map_map]
      congr 1
      exact List.map_congr_left ih

end Map

/-! ## First and last -/

theorem head?_preorder (t : Tree α) : t.preorder.head? = some t.value := by
  rw [preorder_eq, List.head?_cons]

theorem getLast?_postorder (t : Tree α) : t.postorder.getLast? = some t.value := by
  obtain ⟨v, ts⟩ := t
  rw [postorder_node, List.getLast?_concat]
  rfl

theorem head?_queued (t : Tree α) : (queued [t]).head? = some t.value := by
  rw [queued_cons, List.head?_cons]

end Grove.Tree
