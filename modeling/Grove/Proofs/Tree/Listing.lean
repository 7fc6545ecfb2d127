import Grove.Tree.Basic
import Mathlib.Data.List.Perm.Basic
import Mathlib.Data.Nat.Init

/-!
# `Proofs.Tree.Listing` — the nodes of a tree in three orders

The orders in which a tree can be listed, by recursion on the tree: `preorder` puts a node before its subtrees,
`postorder` after them. `queued` lists several trees at once as a queue does: the node in front comes first, and
its subtrees go to the end.

A queue lists level by level. This is stated through any numbering of the nodes that grows by one from a node to
its children (`Graded`): what `queued` lists is sorted by it, and on each level the nodes stand in preorder
(`filter_queued`). These two properties determine the listing: it is the preorder, sorted by level without
changing the order on a level (`queued_eq_mergeSort`).
-/

namespace Grove.Tree

variable {α β : Type}

/-! ## Induction -/

/-- What holds of a tree as soon as it holds of its subtrees holds of every tree. -/
@[induction_eliminator]
theorem induction {P : Tree α → Prop} (node : ∀ v ts, (∀ t ∈ ts, P t) → P (node v ts)) (t : Tree α) : P t := by
  match t with
  | .node v ts => exact node v ts fun t _ => induction node t

/-! ## Depth-first orders -/

mutual

/-- The nodes of a tree, each before its subtrees. -/
def preorder : Tree α → List α
  | node v ts => v :: preorderOfAll ts

/-- The nodes of trees that stand in a row, tree by tree. -/
def preorderOfAll : List (Tree α) → List α
  | [] => []
  | t :: rest => preorder t ++ preorderOfAll rest

end

mutual

/-- The nodes of a tree, each after its subtrees. -/
def postorder : Tree α → List α
  | node v ts => postorderOfAll ts ++ [v]

/-- The nodes of trees that stand in a row, tree by tree. -/
def postorderOfAll : List (Tree α) → List α
  | [] => []
  | t :: rest => postorder t ++ postorderOfAll rest

end

theorem preorderOfAll_eq (ts : List (Tree α)) : preorderOfAll ts = ts.flatMap preorder := by
  induction ts with
  | nil => rfl
  | cons t rest ih => rw [preorderOfAll, ih, List.flatMap_cons]

theorem postorderOfAll_eq (ts : List (Tree α)) : postorderOfAll ts = ts.flatMap postorder := by
  induction ts with
  | nil => rfl
  | cons t rest ih => rw [postorderOfAll, ih, List.flatMap_cons]

@[simp] theorem preorder_node (v : α) (ts : List (Tree α)) :
    (node v ts).preorder = v :: ts.flatMap preorder := by
  rw [preorder, preorderOfAll_eq]

@[simp] theorem postorder_node (v : α) (ts : List (Tree α)) :
    (node v ts).postorder = ts.flatMap postorder ++ [v] := by
  rw [postorder, postorderOfAll_eq]

/-- Both depth-first orders list the same nodes. -/
theorem postorder_perm_preorder (t : Tree α) : t.postorder.Perm t.preorder := by
  induction t with
  | node v ts ih =>
    rw [postorder_node, preorder_node]
    refine (List.perm_append_singleton v _).trans (.cons v ?_)
    exact List.Perm.flatMap_left ts ih

theorem mem_postorder_iff {x : α} {t : Tree α} : x ∈ t.postorder ↔ x ∈ t.preorder :=
  t.postorder_perm_preorder.mem_iff

/-! ## Breadth-first order -/

/-- The nodes of the trees in a queue: the node in front, then the rest of the queue with the node's subtrees
    at its end. -/
def queued : List (Tree α) → List α
  | [] => []
  | node v ts :: rest => v :: queued (rest ++ ts)
termination_by ts => (ts.flatMap preorder).length
decreasing_by
  simp only [List.flatMap_append, List.length_append, List.flatMap_cons, preorder_node, List.length_cons]
  omega

@[simp] theorem queued_nil : queued ([] : List (Tree α)) = [] := by
  rw [queued]

theorem queued_cons (t : Tree α) (rest : List (Tree α)) :
    queued (t :: rest) = t.value :: queued (rest ++ t.children) := by
  obtain ⟨v, ts⟩ := t
  rw [queued]
  rfl

/-- The trees in a queue come first, and then all of their subtrees. -/
theorem queued_append (ts us : List (Tree α)) :
    queued (ts ++ us) = ts.map value ++ queued (us ++ ts.flatMap children) := by
  induction ts generalizing us with
  | nil => simp
  | cons t ts ih => rw [List.cons_append, queued_cons, List.append_assoc, ih]; simp

theorem queued_eq_level (ts : List (Tree α)) : queued ts = ts.map value ++ queued (ts.flatMap children) := by
  simpa using queued_append ts []

theorem preorder_eq (t : Tree α) : t.preorder = t.value :: t.children.flatMap preorder := by
  obtain ⟨v, ts⟩ := t
  exact preorder_node v ts

/-- Read level by level, trees in a row hold their tops and what their subtrees hold. -/
theorem flatMap_preorder_perm (ts : List (Tree α)) :
    (ts.flatMap preorder).Perm (ts.map value ++ (ts.flatMap children).flatMap preorder) := by
  induction ts with
  | nil => simp
  | cons t ts ih =>
    rw [List.flatMap_cons, preorder_eq, List.map_cons, List.flatMap_cons, List.flatMap_append,
      List.cons_append, List.cons_append]
    refine .cons _ ((List.Perm.append_left _ ih).trans ?_)
    exact List.perm_append_comm_assoc ..

/-- What holds of trees in a row as soon as it holds of their subtrees in a row holds of all trees in a row. -/
theorem level_induction {P : List (Tree α) → Prop} (nil : P [])
    (level : ∀ ts, ts ≠ [] → P (ts.flatMap children) → P ts) (ts : List (Tree α)) : P ts := by
  -- subtrees in a row hold fewer nodes, as the tops are not among them
  induction hsize : (ts.flatMap preorder).length using Nat.strong_induction_on generalizing ts with
  | _ size ih =>
    by_cases hts : ts = []
    · rw [hts]
      exact nil
    · have hlength := (flatMap_preorder_perm ts).length_eq
      have hpos := List.length_pos_iff.2 hts
      rw [List.length_append, List.length_map] at hlength
      exact level ts hts (ih _ (by omega) _ rfl)

/-- A queue lists what the trees in it hold. -/
theorem queued_perm (ts : List (Tree α)) : (queued ts).Perm (ts.flatMap preorder) := by
  induction ts using level_induction with
  | nil => simp
  | level ts _ ih =>
    rw [queued_eq_level]
    exact (List.Perm.append_left _ ih).trans (flatMap_preorder_perm ts).symm

theorem queued_singleton_perm (t : Tree α) : (queued [t]).Perm t.preorder := by
  simpa using queued_perm [t]

/-! ## Levels -/

/-- The top of the tree has the given level, and each node a level one more than its parent. -/
inductive Graded (level : α → Nat) : Nat → Tree α → Prop where
  | node {k : Nat} {v : α} {ts : List (Tree α)} (htop : level v = k)
      (hbelow : ∀ t ∈ ts, Graded level (k + 1) t) : Graded level k (node v ts)

variable {level : α → Nat} {k : Nat}

theorem Graded.level_value {t : Tree α} (h : Graded level k t) : level t.value = k := by
  cases h with
  | node htop _ => exact htop

theorem Graded.of_mem_children {t u : Tree α} (h : Graded level k t) (hu : u ∈ t.children) :
    Graded level (k + 1) u := by
  cases h with
  | node _ hbelow => exact hbelow u hu

theorem Graded.le_level {t : Tree α} (h : Graded level k t) {x : α} (hx : x ∈ t.preorder) : k ≤ level x := by
  induction t generalizing k with
  | node v ts ih =>
    cases h with
    | node htop hbelow =>
      rw [preorder_node, List.mem_cons, List.mem_flatMap] at hx
      rcases hx with rfl | ⟨u, hu, hx⟩
      · exact Nat.le_of_eq htop.symm
      · exact Nat.le_of_succ_le (ih u hu (hbelow u hu) hx)

/-- Trees in a row, all tops on one level. -/
theorem graded_children {ts : List (Tree α)} (h : ∀ t ∈ ts, Graded level k t) :
    ∀ u ∈ ts.flatMap children, Graded level (k + 1) u := by
  intro u hu
  obtain ⟨t, ht, hut⟩ := List.mem_flatMap.1 hu
  exact (h t ht).of_mem_children hut

theorem le_level_of_mem_flatMap {ts : List (Tree α)} (h : ∀ t ∈ ts, Graded level k t) {x : α}
    (hx : x ∈ ts.flatMap preorder) : k ≤ level x := by
  obtain ⟨t, ht, hxt⟩ := List.mem_flatMap.1 hx
  exact (h t ht).le_level hxt

/-- A queue of trees on one level goes through the levels in order. -/
theorem pairwise_queued {ts : List (Tree α)} (h : ∀ t ∈ ts, Graded level k t) :
    (queued ts).Pairwise fun x y => level x ≤ level y := by
  induction ts using level_induction generalizing k with
  | nil => simp
  | level ts _ ih =>
    have hbelow := graded_children h
    have htop : ∀ x ∈ ts.map value, level x = k := by
      intro x hx
      obtain ⟨t, ht, rfl⟩ := List.mem_map.1 hx
      exact (h t ht).level_value
    rw [queued_eq_level, List.pairwise_append]
    refine ⟨?_, ih hbelow, ?_⟩
    · exact List.pairwise_of_forall_mem_list fun x hx y hy => Nat.le_of_eq ((htop x hx).trans (htop y hy).symm)
    · intro x hx y hy
      have hy' := le_level_of_mem_flatMap hbelow ((queued_perm _).mem_iff.1 hy)
      rw [htop x hx]
      omega

/-- The nodes of one level, in the trees and below them. -/
theorem filter_flatMap_preorder {ts : List (Tree α)} (h : ∀ t ∈ ts, Graded level k t) (j : Nat) :
    (ts.flatMap preorder).filter (level · == j)
      = (ts.map value).filter (level · == j) ++ ((ts.flatMap children).flatMap preorder).filter (level · == j) := by
  induction ts with
  | nil => simp
  | cons t ts ih =>
    have ht := h t (List.mem_cons_self ..)
    rw [List.flatMap_cons, List.filter_append, ih fun u hu => h u (List.mem_cons_of_mem _ hu), preorder_eq,
      List.map_cons, List.filter_cons, List.filter_cons, List.flatMap_cons, List.flatMap_append,
      List.filter_append]
    by_cases hj : level t.value = j
    · -- nothing below the top is on its level
      have hnone : (t.children.flatMap preorder).filter (level · == j) = [] := by
        rw [List.filter_eq_nil_iff]
        intro x hx
        have hx' := le_level_of_mem_flatMap (fun u hu => ht.of_mem_children hu) hx
        rw [ht.level_value] at hj
        simp
        omega
      simp [hj, hnone]
    · -- the tops of the other trees are on the level of this one
      have hnone : (ts.map value).filter (level · == j) = [] := by
        rw [List.filter_eq_nil_iff]
        intro x hx
        obtain ⟨u, hu, rfl⟩ := List.mem_map.1 hx
        rw [(h u (List.mem_cons_of_mem _ hu)).level_value, ← ht.level_value]
        simpa using hj
      simp [hj, hnone]

/-- On each level a queue keeps the preorder. -/
theorem filter_queued {ts : List (Tree α)} (h : ∀ t ∈ ts, Graded level k t) (j : Nat) :
    (queued ts).filter (level · == j) = (ts.flatMap preorder).filter (level · == j) := by
  induction ts using level_induction generalizing k with
  | nil => simp
  | level ts _ ih =>
    rw [filter_flatMap_preorder h, queued_eq_level, List.filter_append, ih (graded_children h)]

/-! ## Stable sorting -/

section

variable (key : α → Nat) {l m : List α}

theorem mem_iff_of_filter (hfilter : ∀ j, l.filter (key · == j) = m.filter (key · == j)) (x : α) :
    x ∈ l ↔ x ∈ m := by
  have hx : ∀ n : List α, x ∈ n ↔ x ∈ n.filter (key · == key x) := fun n => by simp
  rw [hx l, hx m, hfilter]

theorem key_head_le {a b : α} (hm : (b :: m).Pairwise fun x y => key x ≤ key y) (ha : a ∈ b :: m) :
    key b ≤ key a := by
  rcases List.mem_cons.1 ha with rfl | ha
  · exact Nat.le_refl _
  · exact (List.pairwise_cons.1 hm).1 a ha

/-- A list that is sorted by a key is determined by what it holds under each key. -/
theorem eq_of_pairwise_of_filter (hl : l.Pairwise fun x y => key x ≤ key y)
    (hm : m.Pairwise fun x y => key x ≤ key y) (hfilter : ∀ j, l.filter (key · == j) = m.filter (key · == j)) :
    l = m := by
  have hmem := mem_iff_of_filter key hfilter
  induction l generalizing m with
  | nil =>
    cases m with
    | nil => rfl
    | cons b m => simpa using hmem b
  | cons a l ih =>
    cases m with
    | nil => simpa using hmem a
    | cons b m =>
      -- each head is among the elements of the other list, so neither has the smaller key
      have hkey : key a = key b := by
        apply Nat.le_antisymm
        · exact key_head_le key hl ((hmem b).2 (List.mem_cons_self ..))
        · exact key_head_le key hm ((hmem a).1 (List.mem_cons_self ..))
      have hhead := hfilter (key a)
      rw [List.filter_cons_of_pos (by simp), List.filter_cons_of_pos (by simp [hkey])] at hhead
      obtain ⟨rfl, -⟩ := List.cons.inj hhead
      have hrest : ∀ j, l.filter (key · == j) = m.filter (key · == j) := by
        intro j
        have hj := hfilter j
        rw [List.filter_cons, List.filter_cons] at hj
        split at hj
        · exact (List.cons.inj hj).2
        · exact hj
      rw [ih hl.of_cons hm.of_cons hrest (mem_iff_of_filter key hrest)]

/-- A sorted list with two adjacent keys at most is what it holds under the one and then under the other. -/
theorem eq_filter_append_filter {k : Nat} (hsorted : l.Pairwise fun x y => key x ≤ key y)
    (hkeys : ∀ x ∈ l, k ≤ key x ∧ key x ≤ k + 1) :
    l = l.filter (key · == k) ++ l.filter (key · == k + 1) := by
  induction l with
  | nil => rfl
  | cons a l ih =>
    rw [List.pairwise_cons] at hsorted
    rw [List.forall_mem_cons] at hkeys
    have hrest := ih hsorted.2 hkeys.2
    by_cases ha : key a = k
    · rw [List.filter_cons_of_pos (by simp [ha]), List.filter_cons_of_neg (by simp [ha]), List.cons_append, ← hrest]
    · -- the first key is the greater one, so there is no other after it
      have hgreater : ∀ x ∈ a :: l, key x = k + 1 := by
        intro x hx
        rcases List.mem_cons.1 hx with rfl | hx
        · omega
        · have hle := hsorted.1 x hx
          have hbound := hkeys.2 x hx
          omega
      have hnone : (a :: l).filter (key · == k) = [] := by
        rw [List.filter_eq_nil_iff]
        intro x hx
        simp [hgreater x hx]
      have hall : (a :: l).filter (key · == k + 1) = a :: l := by
        rw [List.filter_eq_self]
        intro x hx
        simp [hgreater x hx]
      rw [hnone, hall, List.nil_append]

end

theorem le_key_trans (key : α → Nat) (x y z : α) (hxy : decide (key x ≤ key y) = true)
    (hyz : decide (key y ≤ key z) = true) : decide (key x ≤ key z) = true :=
  decide_eq_true (Nat.le_trans (of_decide_eq_true hxy) (of_decide_eq_true hyz))

theorem le_key_total (key : α → Nat) (x y : α) :
    (decide (key x ≤ key y) || decide (key y ≤ key x)) = true := by
  simpa using Nat.le_total (key x) (key y)

/-- Sorting by a key keeps the order under each key. -/
theorem filter_mergeSort (key : α → Nat) (l : List α) (j : Nat) :
    (l.mergeSort fun x y => decide (key x ≤ key y)).filter (key · == j) = l.filter (key · == j) := by
  have hsorted : (l.filter (key · == j)).Pairwise fun x y => decide (key x ≤ key y) = true := by
    apply List.pairwise_of_forall_mem_list
    intro x hx y hy
    have hx' := beq_iff_eq.1 (List.mem_filter.1 hx).2
    have hy' := beq_iff_eq.1 (List.mem_filter.1 hy).2
    simp [hx', hy']
  -- the elements under `j` are sorted already, so that sorting keeps them in their order
  have hsub := List.sublist_mergeSort (le_key_trans key) (le_key_total key) hsorted List.filter_sublist
  have hsub' : (l.filter (key · == j)).Sublist
      ((l.mergeSort fun x y => decide (key x ≤ key y)).filter (key · == j)) := by
    simpa using hsub.filter (key · == j)
  refine (hsub'.eq_of_length ?_).symm
  exact ((List.mergeSort_perm l _).filter _).length_eq.symm

/-- **Breadth-first order is the preorder sorted by level**, the nodes of one level in preorder. -/
theorem queued_eq_mergeSort {t : Tree α} (h : Graded level k t) :
    queued [t] = t.preorder.mergeSort fun x y => decide (level x ≤ level y) := by
  have hgraded : ∀ u ∈ [t], Graded level k u := by simpa using h
  refine eq_of_pairwise_of_filter level (pairwise_queued hgraded) ?_ fun j => ?_
  · have hsorted := List.pairwise_mergeSort (le_key_trans level) (le_key_total level) t.preorder
    exact hsorted.imp of_decide_eq_true
  · rw [filter_queued hgraded, filter_mergeSort, List.flatMap_cons, List.flatMap_nil, List.append_nil]

end Grove.Tree
