import Grove.Proofs.Forest.Iteration
import Grove.Proofs.Forest.Order
import Grove.Proofs.Forest.Partition

/-!
# `Proofs.Forest.Leaves` — the leaves of a tree from left to right

From a node one gets to the leaves below it, and to the leaves on both sides of its subtree. All of them are found
along links, and their places in the preorder are those that the names promise (`leaves_in_order`). On leaves the steps
to the right and to the left go through the leaves of the tree as they are listed (`follows_nextLeaf`,
`follows_previousLeaf`), so that none is left out and each kind of step undoes the other.
-/

namespace Grove.Forest

variable {α : Type} {F : Forest α} {r n : NodeId}

/-- A node is a leaf if it is there and has no children. -/
theorem isLeaf_eq_true_iff : F.isLeaf n = .ok true ↔ F.contains n = true ∧ F.childrenOf n = [] := by
  cases hn : F.contains n with
  | true => simp [isLeaf_eq_ok hn]
  | false =>
    have hgone : F.linked n = .error (.breach (.danglingLink n)) := by
      rw [linked, get?_eq_none_iff.2 hn]
    simp [isLeaf, children, hgone, bind, Except.bind]

namespace WellFormed

section

variable (hF : F.WellFormed) (hr : F.contains r = true)

include hF hr

/-- The leaves of a tree are below its root. -/
theorem mem_leavesIn_shape_iff : n ∈ F.leavesIn (F.shape r).preorder ↔ F.Ancestor r n ∧ F.childrenOf n = [] := by
  rw [mem_leavesIn_iff, hF.mem_preorder_shape_iff hr]

/-- Wherever the leaves of a tree are split at one of them, they are those around it. -/
theorem exists_around_of_split_leavesIn {front back : List NodeId}
    (hsplit : F.leavesIn (F.shape r).preorder = front ++ n :: back) :
    ∃ before after, F.contains n = true ∧ F.Around r n before after ∧ front = F.leavesIn before ∧
      back = F.leavesIn after := by
  obtain ⟨hup, hleaf⟩ := (hF.mem_leavesIn_shape_iff hr (n := n)).1 (by simp [hsplit])
  have hn := contains_of_ancestor hup hr
  obtain ⟨before, after, haround⟩ := hF.exists_around hup
  have hlisted : F.leavesIn (F.shape r).preorder = F.leavesIn before ++ n :: F.leavesIn after := by
    rw [haround.preorder_eq hF, hF.preorder_shape hn, hleaf, List.flatMap_nil, List.append_assoc,
      List.singleton_append, leavesIn_append, leavesIn_cons_of_leaf hleaf]
  exact ⟨before, after, hn, haround, split_unique ((hF.nodup_preorder_shape hr).filter _) hsplit hlisted⟩

variable (htop : F.parentOf r = none)

include htop

theorem follows_nextLeaf : Follows F.nextLeaf (F.leavesIn (F.shape r).preorder) := by
  intro before n after hsplit
  obtain ⟨front, back, hn, haround, -, rfl⟩ := hF.exists_around_of_split_leavesIn hr hsplit
  exact haround.nextLeaf_eq hF htop hn

theorem follows_previousLeaf : Follows F.previousLeaf (F.leavesIn (F.shape r).preorder).reverse := by
  rw [follows_reverse_iff]
  intro before n after hsplit
  obtain ⟨front, back, hn, haround, rfl, -⟩ := hF.exists_around_of_split_leavesIn hr hsplit
  exact haround.previousLeaf_eq hF htop hn

end

/-- On leaves the two kinds of step undo each other. -/
theorem nextLeaf_eq_some_iff (hF : F.WellFormed) {a b : NodeId} (ha : F.isLeaf a = .ok true)
    (hb : F.isLeaf b = .ok true) : F.nextLeaf a = .ok (some b) ↔ F.previousLeaf b = .ok (some a) := by
  obtain ⟨ha, haleaf⟩ := isLeaf_eq_true_iff.1 ha
  obtain ⟨hb, hbleaf⟩ := isLeaf_eq_true_iff.1 hb
  constructor
  · obtain ⟨r, _, hr, hup⟩ := hF.exists_root ha
    obtain ⟨hlive, htop⟩ := mem_roots_iff.1 hr
    exact (hF.follows_nextLeaf hlive htop).back (hF.follows_previousLeaf hlive htop)
      ((hF.mem_leavesIn_shape_iff hlive).2 ⟨hup, haleaf⟩)
  · obtain ⟨r, _, hr, hup⟩ := hF.exists_root hb
    obtain ⟨hlive, htop⟩ := mem_roots_iff.1 hr
    exact (hF.follows_nextLeaf hlive htop).forth (hF.follows_previousLeaf hlive htop)
      ((hF.mem_leavesIn_shape_iff hlive).2 ⟨hup, hbleaf⟩)

end WellFormed

/-- **Leaves from left to right.** The first and the last leaf of a node are those of its subtree, whose number is
    counted. Where the subtree stands in the preorder of the tree, the next leaf of the node is the first one after the
    subtree, and its previous leaf the last one before the subtree, if there are such leaves. Asked for again and again
    from the first leaf of a root, next leaves are all leaves of the tree, each once. For leaves, one is the next of
    another exactly if that one is its previous leaf. -/
theorem leaves_in_order (hF : F.Reachable) :
    (∀ n, F.contains n = true → ∃ r tree below before after first last,
      F.root n = .ok r ∧ F.preorder r = .ok tree ∧ F.preorder n = .ok below ∧ tree.Nodup ∧
      tree = before ++ below ++ after ∧
      F.firstLeaf n = .ok first ∧ (F.leavesIn below).head? = some first ∧
      F.lastLeaf n = .ok last ∧ (F.leavesIn below).getLast? = some last ∧
      F.leafCount n = .ok (F.leavesIn below).length ∧
      F.nextLeaf n = .ok (F.leavesIn after).head? ∧ F.previousLeaf n = .ok (F.leavesIn before).getLast?) ∧
    (∀ r ∈ F.roots, ∃ tree first, F.preorder r = .ok tree ∧ F.firstLeaf r = .ok first ∧
      Visits F.nextLeaf first (F.leavesIn tree) ∧ (F.leavesIn tree).Nodup ∧
      (∀ x, x ∈ F.leavesIn tree ↔ x ∈ tree ∧ F.isLeaf x = .ok true) ∧
      F.leafCount r = .ok (F.leavesIn tree).length) ∧
    ∀ a b, F.isLeaf a = .ok true → F.isLeaf b = .ok true →
      (F.nextLeaf a = .ok (some b) ↔ F.previousLeaf b = .ok (some a)) := by
  have hF := hF.wellFormed
  refine ⟨?_, ?_, fun a b ha hb => hF.nextLeaf_eq_some_iff ha hb⟩
  · intro n hn
    obtain ⟨r, before, after, hroot, hlive, htop, haround⟩ := hF.exists_around_root hn
    obtain ⟨first, hfirst, hleft⟩ := hF.exists_firstLeaf hn
    obtain ⟨last, hlast, hright⟩ := hF.exists_lastLeaf hn
    exact ⟨r, _, _, before, after, first, last, hroot, (preorder_eq hF hlive).1, (preorder_eq hF hn).1,
      hF.nodup_preorder_shape hlive, haround.preorder_eq hF, hfirst, hleft.head?_leavesIn hF hn, hlast,
      hright.getLast?_leavesIn hF hn, hF.leafCount_eq_ok hn, haround.nextLeaf_eq hF htop hn,
      haround.previousLeaf_eq hF htop hn⟩
  · intro r hr
    obtain ⟨hlive, htop⟩ := mem_roots_iff.1 hr
    obtain ⟨first, hfirst, hdown⟩ := hF.exists_firstLeaf hlive
    refine ⟨_, first, (preorder_eq hF hlive).1, hfirst, (hF.follows_nextLeaf hlive htop).visits
      (hdown.head?_leavesIn hF hlive), (hF.nodup_preorder_shape hlive).filter _, ?_, hF.leafCount_eq_ok hlive⟩
    intro x
    rw [mem_leavesIn_iff, isLeaf_eq_true_iff]
    exact and_congr_right fun hx => (and_iff_right (hF.contains_of_mem_shape hlive hx)).symm

/-- On a node with two children, the first of which has one: its first leaf is below the first child, and the next
    leaf from there is the second child. -/
theorem leaves_in_order_of_four :
    let F := (empty : Forest Nat).afterAll
      [.create 7, .create 8, .create 9, .create 6, .add ⟨0, 0⟩ ⟨1, 0⟩, .add ⟨0, 0⟩ ⟨2, 0⟩, .add ⟨1, 0⟩ ⟨3, 0⟩]
    F.Reachable ∧ F.nextLeaf ⟨3, 0⟩ = .ok (some ⟨2, 0⟩) ∧ F.previousLeaf ⟨2, 0⟩ = .ok (some ⟨3, 0⟩) ∧
      F.leafCount ⟨0, 0⟩ = .ok 2 ∧ Visits F.nextLeaf ⟨3, 0⟩ [⟨3, 0⟩, ⟨2, 0⟩] := by
  intro F
  have hF : F.Reachable := ⟨_, rfl⟩
  obtain ⟨-, htrees, hback⟩ := leaves_in_order hF
  obtain ⟨tree, first, htree, hfirst, hvisits, -, -, hcount⟩ := htrees ⟨0, 0⟩ (by decide)
  obtain rfl : tree = [⟨0, 0⟩, ⟨1, 0⟩, ⟨3, 0⟩, ⟨2, 0⟩] := Except.ok.inj (htree.symm.trans rfl)
  obtain rfl : first = ⟨3, 0⟩ := Except.ok.inj (hfirst.symm.trans rfl)
  have hprevious : F.previousLeaf ⟨2, 0⟩ = .ok (some ⟨3, 0⟩) := rfl
  exact ⟨hF, (hback ⟨3, 0⟩ ⟨2, 0⟩ rfl rfl).2 hprevious, hprevious, hcount, hvisits⟩

end Grove.Forest
