import Grove.Proofs.Forest.Shape
import Grove.Proofs.Tree.Levels

/-!
# `Proofs.Forest.Subtree` — the tree of values below a node

The subtree of a node is its shape with each name replaced by the value behind it (`subtree_eq`); the fuel lasts,
since no level is beyond the forest's size. Nodes in a row have their subtrees read off all at once
(`mapM_subtree_eq`). As a list with levels the subtree is the node's `rows`, which are read off the forest itself
(`levelled_treeOf`).
-/

namespace Grove.Forest

variable {α : Type} [Inhabited α] {F : Forest α}

/-- The value of `n`; the default one if it does not resolve. -/
def valueOf (F : Forest α) (n : NodeId) : α :=
  ((F.get? n).map Node.value).getD default

/-- The tree of values below `n`. -/
def treeOf (F : Forest α) (n : NodeId) : Tree α :=
  (F.shape n).map F.valueOf

/-- The values below `n` in preorder, with the levels that their nodes have in the forest. -/
def rows (F : Forest α) (n : NodeId) : List (Nat × α) :=
  (F.shape n).preorder.map fun x => (F.levelOf x, F.valueOf x)

theorem valueOf_of_get? {n : NodeId} {node : Node α} (h : F.get? n = some node) : F.valueOf n = node.value := by
  rw [valueOf, h, Option.map_some, Option.getD_some]

theorem value_eq_ok_iff {n : NodeId} {v : α} : F.value n = .ok v ↔ F.contains n = true ∧ F.valueOf n = v := by
  cases hnode : F.get? n with
  | none => simp [value, lookup, hnode, contains_iff]
  | some node =>
    have hn : F.contains n = true := contains_of_get? hnode
    rw [value, lookup_eq_ok_iff.2 hnode, valueOf_of_get? hnode]
    simp [hn]

theorem mapM_congr {β γ : Type} {f g : β → Except Failure γ} {l : List β} (h : ∀ b ∈ l, f b = g b) :
    l.mapM f = l.mapM g := by
  induction l with
  | nil => rfl
  | cons b l ih =>
    rw [List.mapM_cons, List.mapM_cons, h b (List.mem_cons_self ..), ih fun c hc => h c (List.mem_cons_of_mem _ hc)]

theorem mapM_eq_ok {β γ : Type} {f : β → Except Failure γ} {g : β → γ} {l : List β}
    (h : ∀ b ∈ l, f b = .ok (g b)) : l.mapM f = .ok (l.map g) :=
  (mapM_congr h).trans List.mapM_pure

namespace WellFormed

theorem treeOf_eq (hF : F.WellFormed) {n : NodeId} (hn : F.contains n = true) :
    F.treeOf n = .node (F.valueOf n) ((F.childrenOf n).map F.treeOf) := by
  rw [treeOf, hF.shape_eq hn, Tree.map_node, List.map_map]
  rfl

/-- Each turn goes one level down, so the fuel lasts. -/
theorem subtreeWithin_eq (hF : F.WellFormed) {n : NodeId} (hn : F.contains n = true) (fuel : Nat)
    (hfuel : F.size ≤ fuel + F.levelOf n) : F.subtreeWithin fuel n = .ok (F.treeOf n) := by
  induction fuel generalizing n with
  | zero =>
    have hlt := hF.levelOf_lt_size hn
    omega
  | succ fuel ih =>
    obtain ⟨node, hnode⟩ := contains_iff.1 hn
    have hchildren := childrenOf_of_get? hnode
    have hbelow : node.children.mapM (F.subtreeWithin fuel) = .ok (node.children.map F.treeOf) := by
      apply mapM_eq_ok
      intro c hc
      rw [← hchildren] at hc
      have hlevel := hF.levelOf_child ((hF.mem_childrenOf_iff n c).1 hc)
      exact ih (hF.contains_child hc) (by omega)
    rw [subtreeWithin, linked_eq_ok_iff.2 hnode, hF.treeOf_eq hn, hchildren, valueOf_of_get? hnode]
    show (do return Tree.node node.value (← node.children.mapM (F.subtreeWithin fuel))) = _
    rw [hbelow]
    rfl

/-- **The subtree of a node** is its shape with the values in place of the names. -/
theorem subtree_eq (hF : F.WellFormed) {n : NodeId} (hn : F.contains n = true) :
    F.subtree n = .ok (F.treeOf n) :=
  hF.subtreeWithin_eq hn F.size (by omega)

theorem mapM_subtree_eq (hF : F.WellFormed) {l : List NodeId} (hl : ∀ n ∈ l, F.contains n = true) :
    l.mapM F.subtree = .ok (l.map F.treeOf) :=
  mapM_eq_ok fun n hn => hF.subtree_eq (hl n hn)

/-- The rows of a node are its tree as a list with levels. -/
theorem levelled_treeOf (hF : F.WellFormed) {n : NodeId} (hn : F.contains n = true) :
    (F.treeOf n).levelled (F.levelOf n) = F.rows n := by
  rw [treeOf, Tree.levelled_map, (hF.graded_shape hn).levelled_eq, List.map_map]
  rfl

end WellFormed

end Grove.Forest
