import Grove.Proofs.Forest.Order
import Grove.Proofs.Forest.Partition
import Grove.Proofs.Outline.Numbering
import Grove.Proofs.Outline.Reread
import Grove.Proofs.Tree.Measures
import Grove.Proofs.Tree.Rails

/-!
# `Proofs.Outline.Listings` — listings, statistics and drawings agree

All of them go through the same entries, and what they tell about an entry is a function of the tree of values below
it: a listing is the tree in one of the orders (`walk_eq`), the statistics are its measures (`stats_eq`), and a
drawing has one line for each of its nodes. So how they fit together is a matter of trees, and the entries need not
be roots, nor lie apart.

In a forest that was read from a text the entries are all the roots, so their trees together are the whole forest.
-/

namespace Grove

open Text

namespace Tree

/-- The nodes of a tree in one of the orders. -/
def listed {α : Type} (order : TraversalOrder) (t : Tree α) : List α :=
  match order with
  | .preorder => t.preorder
  | .postorder => t.postorder
  | .breadthFirst => queued [t]

theorem listed_map {α β : Type} (f : α → β) (order : TraversalOrder) (t : Tree α) :
    (t.map f).listed order = (t.listed order).map f := by
  cases order with
  | preorder => exact preorder_map f t
  | postorder => exact postorder_map f t
  | breadthFirst => exact queued_map f [t]

theorem listed_perm {α : Type} (order : TraversalOrder) (t : Tree α) : (t.listed order).Perm t.preorder := by
  cases order with
  | preorder => exact .refl _
  | postorder => exact t.postorder_perm_preorder
  | breadthFirst => exact queued_singleton_perm t

/-- The measures of a tree. -/
def stats (t : Tree String) : TreeStats where
  root := t.value
  nodes := t.preorder.length
  depth := t.height
  leaves := t.leaves

end Tree

namespace Forest

variable {α : Type} {F : Forest α}

theorem listing_eq (hF : F.WellFormed) {n : NodeId} (hn : F.contains n = true) (order : TraversalOrder) :
    F.listing order n = .ok ((F.shape n).listed order) := by
  cases order with
  | preorder => exact (preorder_eq hF hn).1
  | postorder => exact (postorder_eq hF hn).1
  | breadthFirst => exact (breadthFirst_eq hF hn).1

namespace WellFormed

/-- The leaves of a shape are the nodes without children. -/
theorem leaves_shape (hF : F.WellFormed) {n : NodeId} (hn : F.contains n = true) :
    (F.shape n).leaves = (F.leavesIn (F.shape n).preorder).length := by
  induction n, hn using hF.induction_down with
  | step n hn ih =>
    rw [hF.preorder_shape hn, hF.shape_eq hn]
    by_cases hleaf : F.childrenOf n = []
    · rw [leavesIn_cons_of_leaf hleaf, hleaf]
      rfl
    · -- the node itself does not count, and those below are counted child by child
      rw [Tree.leaves_node_of_ne_nil n (by simpa using hleaf), leavesIn_cons_of_inner hleaf, List.map_map,
        leavesIn, List.filter_flatMap, List.length_flatMap]
      congr 1
      exact List.map_congr_left ih

theorem leafCount_eq (hF : F.WellFormed) {n : NodeId} (hn : F.contains n = true) :
    F.leafCount n = .ok (F.shape n).leaves := by
  rw [hF.leafCount_eq_ok hn, hF.leaves_shape hn]

end WellFormed

section Values

variable [Inhabited α]

theorem valueAt_eq {n : NodeId} (hn : F.contains n = true) : F.valueAt n = .ok (F.valueOf n) := by
  obtain ⟨node, hnode⟩ := contains_iff.1 hn
  rw [valueAt, linked_eq_ok_iff.2 hnode, valueOf_of_get? hnode]
  rfl

/-- The values that a listing finds are those of the tree below the node. -/
theorem mapM_valueAt_listing (hF : F.WellFormed) {n : NodeId} (hn : F.contains n = true) (order : TraversalOrder) :
    (F.listing order n >>= (·.mapM F.valueAt)) = .ok ((F.treeOf n).listed order) := by
  rw [listing_eq hF hn, treeOf, Tree.listed_map]
  exact mapM_eq_ok fun x hx => valueAt_eq (hF.contains_of_mem_shape hn (((F.shape n).listed_perm order).mem_iff.1 hx))

theorem value_treeOf (hF : F.WellFormed) {n : NodeId} (hn : F.contains n = true) :
    (F.treeOf n).value = F.valueOf n := by
  rw [treeOf, Tree.value_map, hF.value_shape hn]

end Values

end Forest

namespace OutlineForest

open Forest

section WellFormed

variable {O : OutlineForest} (hF : O.forest.WellFormed)
include hF

/-- **Listings** are the trees in the order asked for. -/
theorem walk_eq (order : TraversalOrder) :
    O.walk order = .ok ((O.entries.map O.forest.treeOf).map (Tree.listed order)) := by
  rw [List.map_map]
  exact mapM_eq_ok fun n hn => mapM_valueAt_listing hF (List.mem_filter.1 hn).2 order

theorem statsOf_eq {n : NodeId} (hn : O.forest.contains n = true) :
    O.statsOf n = .ok (O.forest.treeOf n).stats := by
  rw [statsOf, valueAt_eq hn, (preorder_eq hF hn).1, hF.depth_eq hn, hF.leafCount_eq hn, Tree.stats,
    value_treeOf hF hn, treeOf, Tree.preorder_map, List.length_map, Tree.height_map, Tree.leaves_map]
  rfl

/-- **Statistics** are the measures of the trees. -/
theorem stats_eq : O.stats = .ok ((O.entries.map O.forest.treeOf).map Tree.stats) := by
  rw [List.map_map]
  exact mapM_eq_ok fun n hn => statsOf_eq hF (List.mem_filter.1 hn).2

/-- **The box drawing** of an outline forest is the lines of its trees, written one after the other. -/
theorem box_eq :
    ∃ text, O.box = .ok text ∧
      text.toList = ((O.entries.map O.forest.treeOf).flatMap Tree.boxLines).flatMap fun s => s.toList ++ ['\n'] := by
  have hentry : ∀ n ∈ O.entries, O.forest.box n = .ok (O.forest.treeOf n).box := by
    intro n hn
    rw [Forest.box, hF.subtree_eq (List.mem_filter.1 hn).2]
    rfl
  refine ⟨_, by rw [box, mapM_eq_ok hentry]; rfl, ?_⟩
  rw [String.toList_join, List.flatMap_map, List.flatMap_assoc, List.flatMap_map]
  exact List.flatMap_congr fun n _ => toList_unlines _

end WellFormed

/-- A text that was written line by line has as many lines, if none of them holds a line feed. -/
theorem length_lines_flatMap {β : Type} {text : String} {f : β → List Char} {l : List β}
    (htext : text.toList = l.flatMap fun b => f b ++ ['\n']) (hfeed : ∀ b ∈ l, '\n' ∉ f b) :
    (lines text.toList).length = l.length := by
  rw [htext, lines_flatMap hfeed, List.length_map]

section Lines

variable {O : OutlineForest} (hF : O.forest.WellFormed)
  (hvalue : ∀ t ∈ O.entries.map O.forest.treeOf, ∀ v ∈ t.preorder, '\n' ∉ v.toList)
include hF hvalue

theorem length_lines_box :
    ∃ text, O.box = .ok text ∧ (lines text.toList).length
      = ((O.entries.map O.forest.treeOf).map fun t => t.preorder.length).sum := by
  obtain ⟨text, hbox, htext⟩ := box_eq hF
  refine ⟨text, hbox, ?_⟩
  rw [length_lines_flatMap htext, List.length_flatMap]
  · congr 1
    exact List.map_congr_left fun t _ => t.length_boxLines
  · intro s hs
    obtain ⟨t, ht, hst⟩ := List.mem_flatMap.1 hs
    exact Tree.newline_not_mem_boxLines (hvalue t ht) s hst

theorem length_lines_outline {style : OutlineStyle} (hlead : '\n' ∉ style.lead.toList)
    (hpadding : ∀ t ∈ O.entries.map O.forest.treeOf, ∀ x ∈ t.levelled 0,
      x.1 * style.indent ≤ OutlineStyle.maxPadding) :
    ∃ text, O.outline style = .ok text ∧ (lines text.toList).length
      = ((O.entries.map O.forest.treeOf).map fun t => t.preorder.length).sum := by
  obtain ⟨text, houtline, htext⟩ := outline_eq hF hpadding
  refine ⟨text, houtline, ?_⟩
  rw [length_lines_flatMap htext, List.length_flatMap]
  · congr 1
    apply List.map_congr_left
    intro t _
    rw [← t.map_snd_levelled 0, List.length_map]
  · intro x hx
    obtain ⟨t, ht, hxt⟩ := List.mem_flatMap.1 hx
    apply OutlineStyle.newline_not_mem_written hlead (hvalue t ht x.2 _)
    rw [← t.map_snd_levelled 0]
    exact List.mem_map_of_mem hxt

end Lines

/-- In a forest that was read the entries are the roots. -/
theorem entries_of_parse {style : OutlineStyle} {text : String} {O : OutlineForest} (h : parse style text = .ok O) :
    O.entries = O.forest.roots := by
  obtain ⟨s, hread, rfl⟩ := exists_readLines_of_parse h
  obtain ⟨L, hL, -⟩ := Progress.Numbered.of_readLines hread
  rw [hL.forest_roots_eq]
  exact List.filter_eq_self.2 hL.contains_root

/-- So the trees below them are all of it. -/
theorem sum_length_of_parse {style : OutlineStyle} {text : String} {O : OutlineForest}
    (h : parse style text = .ok O) :
    ((O.entries.map O.forest.treeOf).map fun t => t.preorder.length).sum = O.forest.size := by
  rw [← (wellFormed_of_parse h).sum_length_trees, entries_of_parse h, trees, List.map_map, List.map_map]
  congr 1
  apply List.map_congr_left
  intro r _
  show ((O.forest.shape r).map _).preorder.length = (O.forest.shape r).preorder.length
  rw [Tree.preorder_map, List.length_map]

/-- **Listings, statistics and drawings describe the same trees**, those below the entries that are alive, in the
    order of the entries. A listing is a tree in one of the orders and the statistics are its measures, both entry
    by entry. With values of one line, a drawing has as many lines as the trees have nodes. A forest that was read
    from a text has no nodes besides them. -/
theorem listings_agree :
    (∀ O : OutlineForest, O.forest.Reachable →
      ∃ ts, List.Forall₂ (fun n t => O.forest.subtree n = .ok t) (O.roots.filter O.forest.contains) ts ∧
        O.walk .preorder = .ok (ts.map Tree.preorder) ∧
        O.walk .postorder = .ok (ts.map Tree.postorder) ∧
        O.walk .breadthFirst = .ok (ts.map fun t => Tree.queued [t]) ∧
        O.stats = .ok (ts.map fun t => ⟨t.value, t.preorder.length, t.height, t.leaves⟩) ∧
        (∀ t ∈ ts, t.postorder.Perm t.preorder ∧ (Tree.queued [t]).Perm t.preorder ∧
          t.preorder.head? = some t.value ∧ (Tree.queued [t]).head? = some t.value ∧
          t.postorder.getLast? = some t.value ∧ 1 ≤ t.leaves ∧ t.leaves ≤ t.preorder.length - t.height) ∧
        ((∀ t ∈ ts, ∀ v ∈ t.preorder, '\n' ∉ v.toList) →
          (∃ text, O.box = .ok text ∧
            (lines text.toList).length = (ts.map fun t => t.preorder.length).sum) ∧
          ∀ style : OutlineStyle, '\n' ∉ style.lead.toList →
            (∀ t ∈ ts, ∀ x ∈ t.levelled 0, x.1 * style.indent ≤ 65535) →
            ∃ text, O.outline style = .ok text ∧
              (lines text.toList).length = (ts.map fun t => t.preorder.length).sum)) ∧
    ∀ style text O, parse style text = .ok O →
      ∃ stats, O.stats = .ok stats ∧ (stats.map TreeStats.nodes).sum = O.forest.size := by
  constructor
  · intro O hO
    have hF := hO.wellFormed
    refine ⟨O.entries.map O.forest.treeOf, ?_, walk_eq hF .preorder, walk_eq hF .postorder, walk_eq hF .breadthFirst,
      stats_eq hF, ?_, ?_⟩
    · rw [List.forall₂_map_right_iff, entries, List.forall₂_same]
      exact fun n hn => hF.subtree_eq (List.mem_filter.1 hn).2
    · intro t _
      have hleaves := t.leaves_add_height_le
      exact ⟨t.listed_perm .postorder, t.listed_perm .breadthFirst, t.head?_preorder, t.head?_queued,
        t.getLast?_postorder, t.leaves_pos, by omega⟩
    · intro hvalue
      exact ⟨length_lines_box hF hvalue, fun style hlead hpadding => length_lines_outline hF hvalue hlead hpadding⟩
  · intro style text O hparse
    refine ⟨_, stats_eq (wellFormed_of_parse hparse), ?_⟩
    rw [← sum_length_of_parse hparse, List.map_map]
    rfl

/-- Entries that overlap: a node, a name that was never given, and the parent of that node. -/
theorem listings_agree_of_nested :
    let O : OutlineForest := ⟨(Forest.empty : Forest String).afterAll [.create "a", .create "b", .add ⟨0, 0⟩ ⟨1, 0⟩],
      [⟨1, 0⟩, ⟨5, 0⟩, ⟨0, 0⟩]⟩
    O.forest.Reachable ∧ O.stats = .ok [⟨"b", 1, 0, 1⟩, ⟨"a", 2, 1, 1⟩] ∧
      ∃ text, O.box = .ok text ∧ (lines text.toList).length = 3 := by
  intro O
  have hO : O.forest.Reachable := ⟨_, rfl⟩
  obtain ⟨ts, htrees, -, -, -, hstats, -, hlines⟩ := listings_agree.1 O hO
  have hlive : O.roots.filter O.forest.contains = [⟨1, 0⟩, ⟨0, 0⟩] := by decide
  have hchild : O.forest.subtree ⟨1, 0⟩ = .ok (.node "b" []) := rfl
  have hparent : O.forest.subtree ⟨0, 0⟩ = .ok (.node "a" [.node "b" []]) := rfl
  rw [hlive] at htrees
  obtain ⟨u, us, hu, hus, rfl⟩ := List.forall₂_cons_left_iff.1 htrees
  obtain ⟨v, vs, hv, hvs, rfl⟩ := List.forall₂_cons_left_iff.1 hus
  obtain rfl := List.forall₂_nil_left_iff.1 hvs
  obtain rfl := Except.ok.inj (hchild.symm.trans hu)
  obtain rfl := Except.ok.inj (hparent.symm.trans hv)
  exact ⟨hO, hstats, (hlines (by decide)).1⟩

end OutlineForest

end Grove
