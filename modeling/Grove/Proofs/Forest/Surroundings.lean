import Grove.Proofs.Forest.Kin
import Grove.Proofs.Forest.Shape
import Mathlib.Data.List.Basic

/-!
# `Proofs.Forest.Surroundings` — what is listed around a subtree

In the preorder of a tree the subtree of a node stands in one piece. What comes before it and what comes after it can be
read off on the way down to the node (`Around`): at each child that is passed the parent and the subtrees on the left
come before, and the subtrees on the right after. Questions that are answered by climbing follow the same way upwards,
so that their answers can be found in these two lists by induction on it.
-/

namespace Grove.Forest

variable {α : Type} {F : Forest α} {n top : NodeId} {before after : List NodeId}

/-- The preorders of nodes that stand in a row. -/
def preorders (F : Forest α) (l : List NodeId) : List NodeId :=
  l.flatMap fun c => (F.shape c).preorder

/-- In the tree below `top` the nodes `before` are listed before the subtree of `n`, and the nodes `after` after it. -/
inductive Around (F : Forest α) (top : NodeId) : NodeId → List NodeId → List NodeId → Prop where
  | top : Around F top top [] []
  | child {n p : NodeId} {left right before after : List NodeId} (hchildren : F.childrenOf p = left ++ n :: right)
      (habove : Around F top p before after) :
      Around F top n (before ++ p :: F.preorders left) (F.preorders right ++ after)

@[simp] theorem preorders_nil : F.preorders [] = [] :=
  rfl

@[simp] theorem preorders_cons (c : NodeId) (l : List NodeId) :
    F.preorders (c :: l) = (F.shape c).preorder ++ F.preorders l :=
  List.flatMap_cons

@[simp] theorem preorders_append (l m : List NodeId) : F.preorders (l ++ m) = F.preorders l ++ F.preorders m :=
  List.flatMap_append

/-- **A subtree is listed in one piece**, between what is around it. -/
theorem Around.preorder_eq (hF : F.WellFormed) (h : F.Around top n before after) :
    (F.shape top).preorder = before ++ (F.shape n).preorder ++ after := by
  induction h with
  | top => simp
  | @child n p left right before after hchildren _ ih =>
    have hp := hF.contains_parent (hF.parentOf_of_split hchildren)
    have hlisted : (F.shape p).preorder = p :: F.preorders (left ++ n :: right) := by
      rw [← hchildren]
      exact hF.preorder_shape hp
    rw [ih, hlisted]
    simp

/-- A node has one place only in a list that has nothing twice. -/
theorem split_unique {l front back : List NodeId} (hnodup : l.Nodup) (h : l = front ++ n :: back)
    (h' : l = before ++ n :: after) : front = before ∧ back = after := by
  subst h
  rw [List.nodup_middle, List.nodup_cons, List.mem_append, not_or] at hnodup
  rw [List.append_cons_inj_of_notMem hnodup.1.1 hnodup.1.2] at h'
  exact ⟨h'.1, h'.2.2⟩

/-- What is around the subtree of a node is determined by the node's place in the list. -/
theorem Around.split (hF : F.WellFormed) (h : F.Around top n before after) (htop : F.contains top = true)
    (hn : F.contains n = true) {front back : List NodeId} (hsplit : (F.shape top).preorder = front ++ n :: back) :
    front = before ∧ back = F.preorders (F.childrenOf n) ++ after := by
  have hlisted : (F.shape top).preorder = before ++ n :: (F.preorders (F.childrenOf n) ++ after) := by
    rw [h.preorder_eq hF, hF.preorder_shape hn, List.append_assoc, List.cons_append]
    rfl
  exact split_unique (hF.nodup_preorder_shape htop) hsplit hlisted

namespace WellFormed

/-- Each node below `top` has its place in the preorder. -/
theorem exists_around (hF : F.WellFormed) (h : F.Ancestor top n) :
    ∃ before after, F.Around top n before after := by
  induction h with
  | refl => exact ⟨_, _, .top⟩
  | tail _ hlink ih =>
    obtain ⟨before, after, habove⟩ := ih
    obtain ⟨left, right, hchildren⟩ := List.append_of_mem ((hF.mem_childrenOf_iff _ _).2 hlink)
    exact ⟨_, _, .child hchildren habove⟩

/-- So each node has one in the tree of its root. -/
theorem exists_around_root (hF : F.WellFormed) (hn : F.contains n = true) :
    ∃ r before after, F.root n = .ok r ∧ F.contains r = true ∧ F.parentOf r = none ∧ F.Around r n before after := by
  obtain ⟨r, hroot, hr, hup⟩ := hF.exists_root hn
  obtain ⟨hlive, htop⟩ := mem_roots_iff.1 hr
  obtain ⟨before, after, haround⟩ := hF.exists_around hup
  exact ⟨r, before, after, hroot, hlive, htop, haround⟩

/-- Wherever the list is split at a node, this is what is around the node. -/
theorem exists_around_of_split (hF : F.WellFormed) (htop : F.contains top = true) {front back : List NodeId}
    (hsplit : (F.shape top).preorder = front ++ n :: back) :
    ∃ after, F.contains n = true ∧ F.Around top n front after ∧ back = F.preorders (F.childrenOf n) ++ after := by
  have hmem : n ∈ (F.shape top).preorder := by simp [hsplit]
  have hn := hF.contains_of_mem_shape htop hmem
  obtain ⟨before, after, haround⟩ := hF.exists_around ((hF.mem_preorder_shape_iff htop).1 hmem)
  obtain ⟨rfl, hback⟩ := haround.split hF htop hn hsplit
  exact ⟨after, hn, haround, hback⟩

end WellFormed

end Grove.Forest
