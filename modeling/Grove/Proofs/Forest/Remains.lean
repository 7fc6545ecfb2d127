import Grove.Proofs.Forest.Moves
import Grove.Proofs.Walker.Traversal

/-!
# `Proofs.Forest.Remains` — what is left when a subtree is given up

Giving up a node cuts it and releases its subtree, from a stack that the released nodes fill with their children. That
the stack releases the whole subtree and nothing else is known (`WellFormed.discard_eq`). Here it is said what this means
for the forest (`discard_outcome`): the names of the subtree lead nowhere, the size drops by their number, and every other
node is as it was, up to the one list from which the top of the subtree is gone.
-/

namespace Grove.Forest

variable {α : Type} {F G : Forest α} {n : NodeId}

namespace WellFormed

/-- The subtree and what is left are together what was there. -/
theorem size_of_discard (hF : F.WellFormed) (hn : F.contains n = true) (hG : G.nodes = ((F.cut n).prune n).nodes) :
    G.size + (F.shape n).preorder.length = F.size := by
  have hcut := hF.cut n
  have hn' : (F.cut n).contains n = true := by rwa [contains_cut]
  have hperm : ((F.cut n).shape n).postorder.reverse.Perm (F.shape n).preorder := by
    rw [hF.shape_cut hn]
    exact (List.reverse_perm _).trans (F.shape n).postorder_perm_preorder
  have hlive : ∀ x ∈ ((F.cut n).shape n).postorder.reverse, (F.cut n).contains x = true := by
    intro x hx
    rw [contains_cut]
    exact hF.contains_of_mem_shape hn (hperm.mem_iff.1 hx)
  have hsize := hcut.sound.size_eraseAll (hperm.nodup_iff.2 (hF.nodup_preorder_shape hn)) hlive
  rw [hperm.length_eq] at hsize
  rw [size, hG]
  exact hsize

end WellFormed

/-- **Giving up a node releases its subtree and nothing else.** The answer is the number of nodes in the subtree, whose
    names resolve no more, so that the size drops by it. The other nodes keep their names, values, parents and
    children, but for the former parent of the node given up, who loses that one child. A root costs one structural
    write, and another node two. -/
theorem discard_outcome (hF : F.Reachable) (hn : F.contains n = true) :
    ∃ nodes G, F.preorder n = .ok nodes ∧ nodes.Nodup ∧ (∀ x, x ∈ nodes ↔ F.Ancestor n x) ∧
      discard n F = .ok nodes.length G ∧
      (∀ x, G.contains x = true ↔ F.contains x = true ∧ x ∉ nodes) ∧ G.size + nodes.length = F.size ∧
      (∀ x, x ∉ nodes → (G.get? x).map Node.value = (F.get? x).map Node.value ∧ G.parentOf x = F.parentOf x ∧
        G.childrenOf x = if F.parentOf n = some x then F.others x n else F.childrenOf x) ∧
      G.generation = F.generation + if F.parentOf n = none then 1 else 2 := by
  have hF := hF.wellFormed
  obtain ⟨G, hdiscard, hnodes, hgeneration⟩ := hF.exists_discard hn
  have hget := hF.get?_of_discard hn hnodes
  refine ⟨_, G, (preorder_eq hF hn).1, hF.nodup_preorder_shape hn, fun x => hF.mem_preorder_shape_iff hn, hdiscard,
    ?_, hF.size_of_discard hn hnodes, ?_, hgeneration⟩
  · intro x
    rw [contains_iff, hget, ← contains_cut n x F, contains_iff]
    by_cases hx : x ∈ (F.shape n).preorder <;> simp [hx]
  · intro x hx
    have hcut : G.get? x = (F.cut n).get? x := (hget x).trans (if_neg hx)
    have hne : x ≠ n := by
      rintro rfl
      exact hx ((hF.mem_preorder_shape_iff hn).2 (ancestor_refl x))
    have hparent : G.parentOf x = (F.cut n).parentOf x := by rw [parentOf, parentOf, hcut]
    have hchildren : G.childrenOf x = (F.cut n).childrenOf x := by rw [childrenOf, childrenOf, hcut]
    refine ⟨?_, ?_, ?_⟩
    · rw [hcut, (Relinked.cut n F).value_eq]
    · rw [hparent, parentOf_cut, if_neg hne]
    · rw [hchildren, childrenOf_cut]
      split
      · rw [hF.others_eq]
      · rename_i hlink
        exact hF.erase_of_parentOf_ne hlink

/-- On a node with two children, the first of which has one: giving the first one up leaves two nodes. -/
theorem discard_outcome_of_four :
    let F := (empty : Forest Nat).afterAll
      [.create 7, .create 8, .create 9, .create 6, .add ⟨0, 0⟩ ⟨1, 0⟩, .add ⟨0, 0⟩ ⟨2, 0⟩, .add ⟨1, 0⟩ ⟨3, 0⟩]
    F.Reachable ∧ F.contains ⟨1, 0⟩ = true ∧
      ∃ G, discard ⟨1, 0⟩ F = .ok 2 G ∧ G.size = 2 ∧ G.contains ⟨3, 0⟩ = false ∧
        G.childrenOf ⟨0, 0⟩ = [⟨2, 0⟩] ∧ G.generation = 5 := by
  intro F
  have hF : F.Reachable := ⟨_, rfl⟩
  have hn : F.contains ⟨1, 0⟩ = true := by decide
  obtain ⟨nodes, G, hnodes, -, -, hdiscard, hlive, hsize, hkept, hgeneration⟩ := discard_outcome hF hn
  have hpreorder : F.preorder ⟨1, 0⟩ = .ok [⟨1, 0⟩, ⟨3, 0⟩] := rfl
  obtain rfl : nodes = [⟨1, 0⟩, ⟨3, 0⟩] := Except.ok.inj (hnodes.symm.trans hpreorder)
  refine ⟨hF, hn, G, hdiscard, ?_, ?_, (hkept ⟨0, 0⟩ (by decide)).2.2, hgeneration⟩
  · have hfour : F.size = 4 := rfl
    rw [hfour] at hsize
    exact Nat.add_right_cancel hsize
  · rw [← Bool.not_eq_true, hlive]
    decide

end Grove.Forest
