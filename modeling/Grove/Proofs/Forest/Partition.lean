import Grove.Proofs.Forest.Meet
import Grove.Proofs.Forest.Subtree
import Grove.Proofs.Walker.Traversal
import Mathlib.Algebra.GroupWithZero.Nat
import Mathlib.Data.List.Flatten

/-!
# `Proofs.Forest.Partition` — the trees partition the forest

The roots are found by reading all slots, the root of a node by climbing, and the nodes of a tree by walking down
from its root. The three fit together (`trees_partition`): each node is in the tree of exactly one root, so that
the trees in a row list all nodes and none twice, and two nodes are related exactly if one tree has both.

What carries this is that climbing ends at a root (`exists_root`) and that no node is below two of them
(`eq_of_parentOf_eq`). There is neither a node that no root leads to nor one that two roots lead to.
-/

namespace Grove.Forest

variable {α : Type} {F : Forest α}

/-- The trees of the forest, each as the list of its nodes in preorder, in the order of their roots. -/
def trees (F : Forest α) : List (List NodeId) :=
  F.roots.map fun r => (F.shape r).preorder

theorem contains_of_mem_roots {r : NodeId} (hr : r ∈ F.roots) : F.contains r = true :=
  (mem_roots_iff.1 hr).1

/-- No root is listed twice. -/
theorem nodup_roots (F : Forest α) : F.roots.Nodup := by
  refine F.pairwise_roots.imp ?_
  rintro m n hlt rfl
  exact Nat.lt_irrefl _ hlt

/-- Nodes are related if they have one root. -/
theorem isRelated_eq {a b r s : NodeId} (hb : F.contains b = true) (hr : F.root a = .ok r)
    (hs : F.root b = .ok s) : F.isRelated a (some b) = .ok (decide (s = r)) := by
  simp only [isRelated, resolve_of_contains hb, hr, hs]
  rfl

namespace WellFormed

/-! ## One tree for each node -/

/-- Only one root is above a node. -/
theorem eq_of_mem_roots (hF : F.WellFormed) {r s n : NodeId} (hr : r ∈ F.roots) (hs : s ∈ F.roots)
    (hrn : F.Ancestor r n) (hsn : F.Ancestor s n) : r = s := by
  have hparent : F.parentOf r = F.parentOf s := (mem_roots_iff.1 hr).2.trans (mem_roots_iff.1 hs).2.symm
  exact hF.eq_of_parentOf_eq hparent hrn hsn

/-- The root of a node is the root that is above it. -/
theorem root_eq_ok_iff (hF : F.WellFormed) {n r : NodeId} (hn : F.contains n = true) :
    F.root n = .ok r ↔ r ∈ F.roots ∧ F.Ancestor r n := by
  obtain ⟨s, hroot, hs, hsn⟩ := hF.exists_root hn
  rw [hroot]
  constructor
  · intro h
    cases h
    exact ⟨hs, hsn⟩
  · rintro ⟨hr, hrn⟩
    rw [hF.eq_of_mem_roots hr hs hrn hsn]

theorem mapM_preorder_roots (hF : F.WellFormed) : F.roots.mapM F.preorder = .ok F.trees :=
  mapM_eq_ok fun _ hr => (preorder_eq hF (contains_of_mem_roots hr)).1

/-- The trees list the nodes that are there. -/
theorem mem_flatten_trees_iff (hF : F.WellFormed) {n : NodeId} :
    n ∈ F.trees.flatten ↔ F.contains n = true := by
  rw [trees, ← List.flatMap_def, List.mem_flatMap]
  constructor
  · rintro ⟨r, hr, hn⟩
    exact hF.contains_of_mem_shape (contains_of_mem_roots hr) hn
  · intro hn
    obtain ⟨r, -, hr, hrn⟩ := hF.exists_root hn
    exact ⟨r, hr, (hF.mem_preorder_shape_iff (contains_of_mem_roots hr)).2 hrn⟩

/-- No node is listed twice, in one tree or in two. -/
theorem nodup_flatten_trees (hF : F.WellFormed) : F.trees.flatten.Nodup := by
  rw [trees, ← List.flatMap_def, List.nodup_flatMap]
  refine ⟨fun r hr => hF.nodup_preorder_shape (contains_of_mem_roots hr), ?_⟩
  apply F.nodup_roots.imp_of_mem
  intro r s hr hs hne n hrn hsn
  rw [hF.mem_preorder_shape_iff (contains_of_mem_roots hr)] at hrn
  rw [hF.mem_preorder_shape_iff (contains_of_mem_roots hs)] at hsn
  exact hne (hF.eq_of_mem_roots hr hs hrn hsn)

/-- The sizes of the trees add up to the size of the forest, which counts the nodes slot by slot. -/
theorem sum_length_trees (hF : F.WellFormed) : (F.trees.map List.length).sum = F.size := by
  have hperm : F.trees.flatten.Perm F.nodes.names := by
    rw [List.perm_ext_iff_of_nodup hF.nodup_flatten_trees F.nodes.nodup_names]
    intro n
    rw [hF.mem_flatten_trees_iff, Arena.mem_names_iff]
    rfl
  calc (F.trees.map List.length).sum = F.trees.flatten.length := List.length_flatten.symm
    _ = F.nodes.names.length := hperm.length_eq
    _ = F.size := hF.sound.length_names

/-! ## Related nodes -/

theorem isRelated_iff (hF : F.WellFormed) {a b : NodeId} (ha : F.contains a = true) (hb : F.contains b = true) :
    F.isRelated a (some b) = .ok true ↔ F.root a = F.root b := by
  obtain ⟨r, hr, -⟩ := hF.exists_root ha
  obtain ⟨s, hs, -⟩ := hF.exists_root hb
  rw [isRelated_eq hb hr hs, hr, hs, Except.ok.injEq, decide_eq_true_iff, Except.ok.injEq, eq_comm]

theorem equivalence_isRelated (hF : F.WellFormed) :
    Equivalence fun a b : {n // F.contains n = true} => F.isRelated a.1 (some b.1) = .ok true where
  refl a := (hF.isRelated_iff a.2 a.2).2 rfl
  symm {a b} hab := (hF.isRelated_iff b.2 a.2).2 ((hF.isRelated_iff a.2 b.2).1 hab).symm
  trans {a b c} hab hbc :=
    (hF.isRelated_iff a.2 c.2).2 (((hF.isRelated_iff a.2 b.2).1 hab).trans ((hF.isRelated_iff b.2 c.2).1 hbc))

/-- A tree lists the nodes that are related to any one of its own. -/
theorem mem_tree_iff (hF : F.WellFormed) {t : List NodeId} (ht : t ∈ F.trees) {a : NodeId} (ha : a ∈ t)
    (b : NodeId) : b ∈ t ↔ F.contains b = true ∧ F.isRelated a (some b) = .ok true := by
  obtain ⟨r, hr, rfl⟩ := List.mem_map.1 ht
  have hlive := contains_of_mem_roots hr
  have ha_live := hF.contains_of_mem_shape hlive ha
  rw [hF.mem_preorder_shape_iff hlive] at ha ⊢
  have hroot : F.root a = .ok r := (hF.root_eq_ok_iff ha_live).2 ⟨hr, ha⟩
  constructor
  · intro hb
    have hb_live := contains_of_ancestor hb hlive
    exact ⟨hb_live, (hF.isRelated_iff ha_live hb_live).2
      (hroot.trans ((hF.root_eq_ok_iff hb_live).2 ⟨hr, hb⟩).symm)⟩
  · rintro ⟨hb_live, hrelated⟩
    rw [hF.isRelated_iff ha_live hb_live, hroot] at hrelated
    exact ((hF.root_eq_ok_iff hb_live).1 hrelated.symm).2

theorem tree_ne_nil (hF : F.WellFormed) {t : List NodeId} (ht : t ∈ F.trees) : t ≠ [] := by
  obtain ⟨r, hr, rfl⟩ := List.mem_map.1 ht
  rw [hF.preorder_shape (contains_of_mem_roots hr)]
  exact List.cons_ne_nil _ _

end WellFormed

/-- **The trees partition the forest.** The roots are the nodes without a parent, in the order of their slots. The
    preorders of all roots in a row list every node once, so that their lengths add up to the size of the forest.
    The root of a node is the one root whose preorder has the node. Being related is answered for any two nodes; it
    is an equivalence, and its classes are the trees. -/
theorem trees_partition (hF : F.Reachable) :
    (∀ n, n ∈ F.roots ↔ F.contains n = true ∧ F.parent n = .ok none) ∧
    (F.roots.Pairwise fun m n => m.slot < n.slot) ∧
    (∀ n, F.contains n = true → ∃ r, F.root n = .ok r ∧
      ∀ s, s = r ↔ s ∈ F.roots ∧ ∃ tree, F.preorder s = .ok tree ∧ n ∈ tree) ∧
    (∀ a b, F.contains a = true → F.contains b = true → ∃ answer, F.isRelated a (some b) = .ok answer) ∧
    Equivalence (fun a b : {n // F.contains n = true} => F.isRelated a.1 (some b.1) = .ok true) ∧
    ∃ trees, F.roots.mapM F.preorder = .ok trees ∧ trees.flatten.Nodup ∧
      (∀ n, n ∈ trees.flatten ↔ F.contains n = true) ∧ (trees.map List.length).sum = F.size ∧
      ∀ t ∈ trees, t ≠ [] ∧
        ∀ a ∈ t, ∀ b, b ∈ t ↔ F.contains b = true ∧ F.isRelated a (some b) = .ok true := by
  have hF := hF.wellFormed
  refine ⟨?_, F.pairwise_roots, ?_, ?_, hF.equivalence_isRelated, F.trees, hF.mapM_preorder_roots,
    hF.nodup_flatten_trees, fun n => hF.mem_flatten_trees_iff, hF.sum_length_trees,
    fun t ht => ⟨hF.tree_ne_nil ht, fun a ha b => hF.mem_tree_iff ht ha b⟩⟩
  · intro n
    rw [mem_roots_iff]
    refine and_congr_right fun hn => ?_
    rw [parent_eq_ok hn, Except.ok.injEq]
  · intro n hn
    obtain ⟨r, hroot, -⟩ := hF.exists_root hn
    refine ⟨r, hroot, fun s => ?_⟩
    have hlisted : s ∈ F.roots → ((∃ tree, F.preorder s = .ok tree ∧ n ∈ tree) ↔ F.Ancestor s n) := by
      intro hs
      have hlive := contains_of_mem_roots hs
      rw [(preorder_eq hF hlive).1, ← hF.mem_preorder_shape_iff hlive]
      simp
    rw [and_congr_right hlisted, ← hF.root_eq_ok_iff hn, hroot, Except.ok.injEq, eq_comm]
  · intro a b ha hb
    obtain ⟨r, hr, -⟩ := hF.exists_root ha
    obtain ⟨s, hs, -⟩ := hF.exists_root hb
    exact ⟨_, isRelated_eq hb hr hs⟩

/-- Two trees, one of two nodes and one of a single node. -/
theorem trees_partition_of_three :
    let F := (empty : Forest Nat).afterAll [.create 7, .create 8, .create 9, .add ⟨2, 0⟩ ⟨0, 0⟩]
    F.Reachable ∧ ⟨0, 0⟩ ∉ F.roots ∧ F.root ⟨0, 0⟩ = .ok ⟨2, 0⟩ ∧ F.isRelated ⟨0, 0⟩ (some ⟨0, 0⟩) = .ok true ∧
      ∃ trees, F.roots.mapM F.preorder = .ok trees ∧ (trees.map List.length).sum = 3 := by
  intro F
  have hF : F.Reachable := ⟨_, rfl⟩
  obtain ⟨hroots, -, hroot, -, hequiv, trees, htrees, -, -, hsum, -⟩ := trees_partition hF
  have hup : F.parent ⟨0, 0⟩ = .ok (some ⟨2, 0⟩) := rfl
  obtain ⟨r, hr, honly⟩ := hroot ⟨0, 0⟩ (by decide)
  have htop : ⟨2, 0⟩ = r := (honly ⟨2, 0⟩).2 ⟨by decide, [⟨2, 0⟩, ⟨0, 0⟩], rfl, by decide⟩
  refine ⟨hF, ?_, htop ▸ hr, hequiv.refl ⟨⟨0, 0⟩, by decide⟩, trees, htrees, hsum⟩
  rw [hroots, hup]
  rintro ⟨-, hnone⟩
  cases hnone

end Grove.Forest
