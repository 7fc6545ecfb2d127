import Grove.Proofs.Forest.Order
import Grove.Proofs.Forest.Subtree
import Mathlib.Data.List.Chain

/-!
# `Proofs.Forest.Depth` — how far a node is from the root and from the leaves

The level of a node counts the hops up to the root, and its path lists the nodes that are met, filled in from the back
of a buffer that is as long as the level says. Its depth is the difference of two levels: its own, and that of the
node which a breadth-first walk visits last.

On a well-formed forest the path leads down along parent links (`isChain_path`). The depth is the height of the tree
below the node (`depth_eq`), so that it can be had from the depths of the children (`exists_max?_depth`) as well as
from the levels of the subtree (`level_depth_path`).
-/

namespace Grove.Forest

variable {α : Type} {F : Forest α} {n : NodeId}

/-! ## The path -/

/-- Each node on a climb is followed by its parent. -/
theorem Climb.isChain {l : List NodeId} (h : F.Climb n l) : l.IsChain fun c p => F.parentOf c = some p := by
  induction h with
  | root => exact List.isChain_singleton _
  | hop hparent hclimb ih =>
    refine List.isChain_cons.2 ⟨fun p hp => ?_, ih⟩
    rw [hclimb.head?_eq, Option.mem_some_iff] at hp
    rw [hparent, hp]

namespace WellFormed

section

variable (hF : F.WellFormed) (hn : F.contains n = true)

include hF hn

/-- The path begins at the root. -/
theorem head?_path {r : NodeId} (hroot : F.root n = .ok r) : (F.chain n).reverse.head? = some r := by
  obtain ⟨s, htop, hlast, -⟩ := (hF.climb_chain hn).exists_topFrom hF hn F.size (hF.length_chain_le hn)
  rw [List.head?_reverse, hlast, Except.ok.inj (htop.symm.trans hroot)]

/-- It leads down. -/
theorem isChain_path : (F.chain n).reverse.IsChain fun p c => F.parent c = .ok (some p) := by
  rw [List.isChain_reverse]
  refine (hF.climb_chain hn).isChain.imp fun c p hparent => ?_
  rw [parent_eq_ok (contains_of_parentOf hparent), hparent]

/-- It has one node more than there are above `n`. -/
theorem length_path : (F.chain n).reverse.length = F.levelOf n + 1 := by
  have hpos := (hF.climb_chain hn).length_pos
  rw [List.length_reverse, levelOf]
  omega

/-! ## The depth -/

/-- An inner node is one deeper than the deepest of its children. -/
theorem exists_max?_depth (hinner : F.childrenOf n ≠ []) :
    ∃ deepest, ((F.childrenOf n).map fun c => (F.shape c).height).max? = some deepest ∧
      (F.shape n).height = 1 + deepest := by
  have hshapes : (F.childrenOf n).map F.shape ≠ [] := by simpa using hinner
  obtain ⟨deepest, hmax, hheight⟩ := Tree.exists_max?_height hshapes
  rw [List.map_map] at hmax
  refine ⟨deepest, hmax, ?_⟩
  rw [hF.shape_eq hn, Tree.height, hheight, Nat.add_comm]

/-- No node below `n` is further down than that. -/
theorem levelOf_le_add_height {x : NodeId} (hx : F.Ancestor n x) :
    F.levelOf x ≤ F.levelOf n + (F.shape n).height :=
  (hF.graded_shape hn).level_le ((hF.mem_preorder_shape_iff hn).2 hx)

/-- A leaf is not deep at all. -/
theorem height_shape_of_leaf (hleaf : F.childrenOf n = []) : (F.shape n).height = 0 := by
  rw [hF.shape_eq hn, hleaf]
  rfl

end

end WellFormed

/-- **Level, depth and path.** The path of a node begins at its root, leads from parent to child, ends with the node,
    and is one longer than its level. The depth is 0 for a leaf and otherwise one more than the greatest depth of a
    child. It says how many levels below the node the deepest node of its subtree is, and breadth-first order, in which
    levels never decrease, ends with such a node. -/
theorem level_depth_path (hF : F.Reachable) (hn : F.contains n = true) :
    ∃ r path level depth,
      F.root n = .ok r ∧ F.path n = .ok path ∧ F.level n = .ok level ∧ F.depth n = .ok depth ∧
      path.head? = some r ∧ path.getLast? = some n ∧
      path.IsChain (fun p c => F.parent c = .ok (some p)) ∧ path.length = level + 1 ∧
      (∃ children depths, F.children n = .ok children ∧ children.mapM F.depth = .ok depths ∧
        (children = [] → depth = 0) ∧
        (children ≠ [] → ∃ deepest, depths.max? = some deepest ∧ depth = 1 + deepest)) ∧
      (∃ below levels, F.preorder n = .ok below ∧ below.mapM F.level = .ok levels ∧
        levels.max? = some (level + depth)) ∧
      ∃ wide levels, F.breadthFirst n = .ok wide ∧ wide.mapM F.level = .ok levels ∧
        levels.Pairwise (· ≤ ·) ∧ levels.getLast? = some (level + depth) := by
  have hF := hF.wellFormed
  obtain ⟨r, hroot, -⟩ := hF.exists_root hn
  have hgraded := hF.graded_shape hn
  have hlast : (F.chain n).reverse.getLast? = some n := by
    rw [List.getLast?_reverse, (hF.climb_chain hn).head?_eq]
  refine ⟨r, _, _, _, hroot, hF.path_eq hn, hF.level_eq hn, hF.depth_eq hn, hF.head?_path hn hroot, hlast,
    hF.isChain_path hn, hF.length_path hn, ?_, ?_, ?_⟩
  · exact ⟨_, _, children_eq_ok hn, mapM_eq_ok fun c hc => hF.depth_eq (hF.contains_child hc),
      hF.height_shape_of_leaf hn, hF.exists_max?_depth hn⟩
  · exact ⟨_, _, (preorder_eq hF hn).1, mapM_eq_ok fun x hx => hF.level_eq (hF.contains_of_mem_shape hn hx),
      hgraded.max?_level⟩
  · obtain ⟨last, hwide, -, hlevel⟩ := hF.exists_last_queued hn
    have hsorted : (Tree.queued [F.shape n]).Pairwise fun x y => F.levelOf x ≤ F.levelOf y :=
      Tree.pairwise_queued (by simpa using hgraded)
    refine ⟨_, _, (breadthFirst_eq hF hn).1, mapM_eq_ok fun x hx => hF.level_eq (hF.contains_of_mem_queued hn hx),
      List.pairwise_map.2 hsorted, ?_⟩
    rw [List.getLast?_map, hwide, Option.map_some, hlevel]

/-- On a node with two children, the first of which has one: that one is on the deepest level, at the end of a path of
    three nodes, and breadth-first order ends with it, whereas the other child ends the preorder. -/
theorem level_depth_path_of_four :
    let F := (empty : Forest Nat).afterAll
      [.create 7, .create 8, .create 9, .create 6, .add ⟨0, 0⟩ ⟨1, 0⟩, .add ⟨0, 0⟩ ⟨2, 0⟩, .add ⟨1, 0⟩ ⟨3, 0⟩]
    F.Reachable ∧ F.contains ⟨0, 0⟩ = true ∧ F.depth ⟨0, 0⟩ = .ok 2 ∧
      F.breadthFirst ⟨0, 0⟩ = .ok [⟨0, 0⟩, ⟨1, 0⟩, ⟨2, 0⟩, ⟨3, 0⟩] ∧
      F.contains ⟨3, 0⟩ = true ∧ F.level ⟨3, 0⟩ = .ok 2 ∧ F.path ⟨3, 0⟩ = .ok [⟨0, 0⟩, ⟨1, 0⟩, ⟨3, 0⟩] := by
  intro F
  have hF : F.Reachable := ⟨_, rfl⟩
  obtain ⟨_, _, level, depth, -, -, hlevel, hdepth, -, -, -, -, -, -, wide, levels, hwide, hlevels, -, hlast⟩ :=
    level_depth_path hF (n := ⟨0, 0⟩) (by decide)
  obtain ⟨_, path, level', _, -, hpath, hlevel', -, -, -, -, hlength, -⟩ :=
    level_depth_path hF (n := ⟨3, 0⟩) (by decide)
  obtain rfl : level = 0 := Except.ok.inj (hlevel.symm.trans rfl)
  obtain rfl : wide = [⟨0, 0⟩, ⟨1, 0⟩, ⟨2, 0⟩, ⟨3, 0⟩] := Except.ok.inj (hwide.symm.trans rfl)
  obtain rfl : levels = [0, 1, 1, 2] := Except.ok.inj (hlevels.symm.trans rfl)
  obtain rfl : path = [⟨0, 0⟩, ⟨1, 0⟩, ⟨3, 0⟩] := Except.ok.inj (hpath.symm.trans rfl)
  obtain rfl : depth = 2 := by simpa using hlast.symm
  obtain rfl : level' = 2 := (Nat.succ.inj hlength).symm
  exact ⟨hF, by decide, hdepth, hwide, by decide, hlevel', hpath⟩

end Grove.Forest
