import Grove.Proofs.Forest.Iteration
import Grove.Proofs.Forest.Order
import Grove.Proofs.Forest.Partition

/-!
# `Proofs.Forest.Neighbours` — stepping through a tree in preorder

The next node is found by looking down and then up, and the previous one by looking sideways and then down. In the
preorder of a whole tree, which a walker lists from its root, they are the nodes on both sides (`follows_nextNode`,
`follows_previousNode`). Stepping on from the root thus visits the tree in preorder, stepping back from its last node
visits it backwards, and each kind of step undoes the other (`neighbours_in_preorder`).
-/

namespace Grove.Forest

variable {α : Type} {F : Forest α} {r n m : NodeId}

/-- In a list that has nothing twice, what stands last is what nothing comes after. -/
theorem getLast?_eq_some_iff_of_nodup {before after : List NodeId} (hnodup : (before ++ n :: after).Nodup) :
    (before ++ n :: after).getLast? = some n ↔ after = [] := by
  constructor
  · intro hlast
    obtain ⟨front, hfront⟩ := List.getLast?_eq_some_iff.1 hlast
    exact (split_unique hnodup rfl hfront).2
  · rintro rfl
    exact List.getLast?_concat

namespace WellFormed

section

variable (hF : F.WellFormed) (hr : F.contains r = true) (htop : F.parentOf r = none)

include hF hr htop

theorem follows_nextNode : Follows F.nextNode (F.shape r).preorder := by
  intro before n after hsplit
  obtain ⟨rest, hn, haround, rfl⟩ := hF.exists_around_of_split hr hsplit
  exact haround.nextNode_eq hF htop hn

theorem follows_previousNode : Follows F.previousNode (F.shape r).preorder.reverse := by
  rw [follows_reverse_iff]
  intro before n after hsplit
  obtain ⟨rest, hn, haround, -⟩ := hF.exists_around_of_split hr hsplit
  exact haround.previousNode_eq hF htop hn

end

/-- The two kinds of step undo each other, as both neighbours of a node are in its tree. -/
theorem nextNode_eq_some_iff (hF : F.WellFormed) (hn : F.contains n = true) (hm : F.contains m = true) :
    F.nextNode n = .ok (some m) ↔ F.previousNode m = .ok (some n) := by
  constructor
  · obtain ⟨r, _, hr, hup⟩ := hF.exists_root hn
    obtain ⟨hlive, htop⟩ := mem_roots_iff.1 hr
    exact (hF.follows_nextNode hlive htop).back (hF.follows_previousNode hlive htop)
      ((hF.mem_preorder_shape_iff hlive).2 hup)
  · obtain ⟨r, _, hr, hup⟩ := hF.exists_root hm
    obtain ⟨hlive, htop⟩ := mem_roots_iff.1 hr
    exact (hF.follows_nextNode hlive htop).forth (hF.follows_previousNode hlive htop)
      ((hF.mem_preorder_shape_iff hlive).2 hup)

end WellFormed

/-- **Neighbours in preorder.** In the preorder of its tree a node stands between its previous and its next node, the
    last node having none after it, and the root none before it. Asked for again and again from a root, next nodes are
    the whole tree in preorder, and previous nodes from the last one are the tree backwards. One node is the next of
    another exactly if that one is its previous node. -/
theorem neighbours_in_preorder (hF : F.Reachable) :
    (∀ n, F.contains n = true → ∃ r tree before after, F.root n = .ok r ∧ F.preorder r = .ok tree ∧ tree.Nodup ∧
      tree = before ++ n :: after ∧ F.nextNode n = .ok after.head? ∧ F.previousNode n = .ok before.getLast? ∧
      (F.nextNode n = .ok none ↔ tree.getLast? = some n) ∧ (F.previousNode n = .ok none ↔ n = r)) ∧
    (∀ r ∈ F.roots, ∃ tree last, F.preorder r = .ok tree ∧ tree.getLast? = some last ∧
      Visits F.nextNode r tree ∧ Visits F.previousNode last tree.reverse) ∧
    ∀ n m, F.contains n = true → F.contains m = true →
      (F.nextNode n = .ok (some m) ↔ F.previousNode m = .ok (some n)) := by
  have hF := hF.wellFormed
  refine ⟨?_, ?_, fun n m hn hm => hF.nextNode_eq_some_iff hn hm⟩
  · intro n hn
    obtain ⟨r, hroot, hr, hup⟩ := hF.exists_root hn
    obtain ⟨hlive, htop⟩ := mem_roots_iff.1 hr
    obtain ⟨before, after, hsplit⟩ := List.append_of_mem ((hF.mem_preorder_shape_iff hlive).2 hup)
    have hnext := hF.follows_nextNode hlive htop before n after hsplit
    have hprevious := follows_reverse_iff.1 (hF.follows_previousNode hlive htop) before n after hsplit
    have hnodup := hF.nodup_preorder_shape hlive
    refine ⟨r, _, before, after, hroot, (preorder_eq hF hlive).1, hnodup, hsplit, hnext, hprevious, ?_, ?_⟩
    · rw [hnext, Except.ok.injEq, List.head?_eq_none_iff, hsplit]
      rw [hsplit] at hnodup
      exact (getLast?_eq_some_iff_of_nodup hnodup).symm
    · rw [hprevious, Except.ok.injEq, List.getLast?_eq_none_iff]
      constructor
      · rintro rfl
        rw [hF.preorder_shape hlive] at hsplit
        exact (List.cons.inj hsplit).1.symm
      · rintro rfl
        exact (Around.top.split hF hlive hlive hsplit).1
  · intro r hr
    obtain ⟨hlive, htop⟩ := mem_roots_iff.1 hr
    obtain ⟨last, -, hdown⟩ := hF.exists_lastLeaf hlive
    have hlast := hdown.getLast?_preorder hF hlive
    refine ⟨_, last, (preorder_eq hF hlive).1, hlast, ?_, ?_⟩
    · exact (hF.follows_nextNode hlive htop).visits (by rw [hF.preorder_shape hlive, List.head?_cons])
    · exact (hF.follows_previousNode hlive htop).visits (by rw [List.head?_reverse, hlast])

/-- On a node with two children, the first of which has one: from that one on the next node is the second child, for
    which the climb passes the first. -/
theorem neighbours_in_preorder_of_four :
    let F := (empty : Forest Nat).afterAll
      [.create 7, .create 8, .create 9, .create 6, .add ⟨0, 0⟩ ⟨1, 0⟩, .add ⟨0, 0⟩ ⟨2, 0⟩, .add ⟨1, 0⟩ ⟨3, 0⟩]
    F.Reachable ∧ F.nextNode ⟨3, 0⟩ = .ok (some ⟨2, 0⟩) ∧ F.previousNode ⟨2, 0⟩ = .ok (some ⟨3, 0⟩) ∧
      Visits F.nextNode ⟨0, 0⟩ [⟨0, 0⟩, ⟨1, 0⟩, ⟨3, 0⟩, ⟨2, 0⟩] := by
  intro F
  have hF : F.Reachable := ⟨_, rfl⟩
  obtain ⟨hplaces, htrees, hback⟩ := neighbours_in_preorder hF
  obtain ⟨tree, -, htree, -, hvisits, -⟩ := htrees ⟨0, 0⟩ (by decide)
  obtain rfl : tree = [⟨0, 0⟩, ⟨1, 0⟩, ⟨3, 0⟩, ⟨2, 0⟩] := Except.ok.inj (htree.symm.trans rfl)
  have hprevious : F.previousNode ⟨2, 0⟩ = .ok (some ⟨3, 0⟩) := rfl
  exact ⟨hF, (hback ⟨3, 0⟩ ⟨2, 0⟩ (by decide) (by decide)).2 hprevious, hprevious, hvisits⟩

end Grove.Forest
