import Grove.Proofs.Forest.Ancestry
import Grove.Proofs.Tree.Measures
import Mathlib.Data.List.Flatten
import Mathlib.Data.List.Nodup

/-!
# `Proofs.Forest.DepthFirst` — before and after, above and below

Two nodes of one tree stand one above the other, or else on two branches that part at some node, one of them further
left there (`side_cases`). Preorder lists the upper of two nodes first and postorder the lower one; what is on two
branches both list from left to right. So each case shows in the two orders in a way of its own, and where two nodes
stand there says whether one is above the other (`depthFirst_laws`).

All of this happens within the listing of one subtree, since each order lists a subtree in one piece
(`isInfix_preorder`, `isInfix_postorder`).
-/

namespace Grove.Forest

variable {α : Type} {F : Forest α} {r x y : NodeId}

/-! ## Positions in a list -/

/-- `x` stands somewhere before `y` in `l`. -/
def Precedes (l : List NodeId) (x y : NodeId) : Prop :=
  [x, y].Sublist l

/-- Of two different nodes in a list one stands before the other. -/
theorem precedes_or_precedes {l : List NodeId} (hx : x ∈ l) (hy : y ∈ l) (hne : x ≠ y) :
    Precedes l x y ∨ Precedes l y x := by
  obtain ⟨before, after, rfl⟩ := List.append_of_mem hx
  rcases List.mem_append.1 hy with hy | hy
  · refine .inr (List.Sublist.append (List.singleton_sublist.2 hy) ?_)
    exact List.singleton_sublist.2 (List.mem_cons_self ..)
  · have hafter : y ∈ after := (List.mem_cons.1 hy).resolve_left hne.symm
    exact .inl (((List.singleton_sublist.2 hafter).cons_cons x).trans (List.sublist_append_right _ _))

/-- In a list that has nothing twice, this is a matter of the positions. -/
theorem Precedes.idxOf_lt {l : List NodeId} (hnodup : l.Nodup) (h : Precedes l x y) : l.idxOf x < l.idxOf y := by
  obtain ⟨front, back, rfl, hx, hy⟩ := List.cons_sublist_iff.1 h
  have hy : y ∉ front := fun hmem =>
    (List.nodup_append.1 hnodup).2.2 y hmem y (List.singleton_sublist.1 hy) rfl
  have hlt := List.idxOf_lt_length_of_mem hx
  rw [List.idxOf_append_of_mem hx, List.idxOf_append_of_notMem hy]
  omega

/-- Lists in a row keep the order in which they stand. -/
theorem Precedes.flatMap {l : List NodeId} {f : NodeId → List NodeId} {c d : NodeId} (h : Precedes l c d)
    (hx : x ∈ f c) (hy : y ∈ f d) : Precedes (l.flatMap f) x y := by
  have hpair : [x, y].Sublist ([c, d].flatMap f) := by
    simpa using (List.singleton_sublist.2 hx).append (List.singleton_sublist.2 hy)
  exact hpair.trans (List.Sublist.flatMap h f)

/-! ## Two nodes of one tree -/

/-- Below a node under `r`, `x` and `y` are on two branches, and that of `x` is further left. -/
def LeftOf (F : Forest α) (r x y : NodeId) : Prop :=
  ∃ p c d, F.Ancestor r p ∧ Precedes (F.childrenOf p) c d ∧ F.Ancestor c x ∧ F.Ancestor d y

namespace WellFormed

/-- **One above the other, or on two branches.** -/
theorem side_cases (hF : F.WellFormed) (hx : F.Ancestor r x) (hy : F.Ancestor r y) :
    F.Ancestor x y ∨ F.Ancestor y x ∨ F.LeftOf r x y ∨ F.LeftOf r y x := by
  -- going down to `x`: what is not above or below the node reached is on another branch for good
  induction hx with
  | refl => exact .inl hy
  | @tail p x hp hlink ih =>
    have hdown : F.Ancestor p x := ancestor_of_parentOf hlink
    rcases ih with hpy | hyp | ⟨q, c, d, hq, hcd, hcp, hdy⟩ | ⟨q, c, d, hq, hcd, hcy, hdp⟩
    · -- `y` is `p`, or below a child of `p`, which may be `x`
      rcases ancestor_iff_child.1 hpy with rfl | ⟨c, hc, hcy⟩
      · exact .inr (.inl hdown)
      by_cases hcx : x = c
      · exact .inl (hcx ▸ hcy)
      have hxlisted := (hF.mem_childrenOf_iff p x).2 hlink
      have hclisted := (hF.mem_childrenOf_iff p c).2 hc
      rcases precedes_or_precedes hxlisted hclisted hcx with hleft | hleft
      · exact .inr (.inr (.inl ⟨p, x, c, hp, hleft, ancestor_refl x, hcy⟩))
      · exact .inr (.inr (.inr ⟨p, c, x, hp, hleft, hcy, ancestor_refl x⟩))
    · exact .inr (.inl (hyp.trans hdown))
    · exact .inr (.inr (.inl ⟨q, c, d, hq, hcd, hcp.trans hdown, hdy⟩))
    · exact .inr (.inr (.inr ⟨q, c, d, hq, hcd, hcy, hdp.trans hdown⟩))

/-! ## Subtrees in one piece -/

/-- What is part of the same list for the parent is so for all nodes above. -/
theorem isInfix_of_ancestor {f : NodeId → List NodeId} (hf : ∀ p c, F.parentOf c = some p → f c <:+: f p)
    (h : F.Ancestor r x) : f x <:+: f r := by
  induction h with
  | refl => exact List.infix_refl _
  | tail _ hlink ih => exact (hf _ _ hlink).trans ih

theorem isInfix_preorder (hF : F.WellFormed) (h : F.Ancestor r x) :
    (F.shape x).preorder <:+: (F.shape r).preorder := by
  refine isInfix_of_ancestor (f := fun n => (F.shape n).preorder) (fun p c hparent => ?_) h
  have hpiece := List.infix_flatMap_of_mem ((hF.mem_childrenOf_iff p c).2 hparent) fun n => (F.shape n).preorder
  rw [hF.preorder_shape (hF.contains_parent hparent)]
  exact hpiece.trans (List.suffix_cons ..).isInfix

theorem isInfix_postorder (hF : F.WellFormed) (h : F.Ancestor r x) :
    (F.shape x).postorder <:+: (F.shape r).postorder := by
  refine isInfix_of_ancestor (f := fun n => (F.shape n).postorder) (fun p c hparent => ?_) h
  have hpiece := List.infix_flatMap_of_mem ((hF.mem_childrenOf_iff p c).2 hparent) fun n => (F.shape n).postorder
  rw [hF.postorder_shape (hF.contains_parent hparent)]
  exact hpiece.trans (List.prefix_append ..).isInfix

/-! ## The order of two nodes -/

section

variable (hF : F.WellFormed) (hr : F.contains r = true)

include hF hr

theorem mem_postorder_shape_iff : x ∈ (F.shape r).postorder ↔ F.Ancestor r x := by
  rw [Tree.mem_postorder_iff, hF.mem_preorder_shape_iff hr]

/-- The upper one of two nodes is listed first in preorder and last in postorder. -/
theorem precedes_of_ancestor (hx : F.Ancestor r x) (hxy : F.Ancestor x y) (hne : x ≠ y) :
    Precedes (F.shape r).preorder x y ∧ Precedes (F.shape r).postorder y x := by
  have hlive := contains_of_ancestor hx hr
  obtain ⟨c, hc, hcy⟩ := (ancestor_iff_child.1 hxy).resolve_left hne
  have hlisted := (hF.mem_childrenOf_iff x c).2 hc
  have hchild := hF.contains_child hlisted
  constructor
  · have hbelow : y ∈ (F.childrenOf x).flatMap fun n => (F.shape n).preorder :=
      List.mem_flatMap.2 ⟨c, hlisted, (hF.mem_preorder_shape_iff hchild).2 hcy⟩
    refine List.Sublist.trans ?_ (hF.isInfix_preorder hx).sublist
    rw [hF.preorder_shape hlive]
    exact (List.singleton_sublist.2 hbelow).cons_cons x
  · have hbelow : y ∈ (F.childrenOf x).flatMap fun n => (F.shape n).postorder :=
      List.mem_flatMap.2 ⟨c, hlisted, (hF.mem_postorder_shape_iff hchild).2 hcy⟩
    refine List.Sublist.trans ?_ (hF.isInfix_postorder hx).sublist
    rw [hF.postorder_shape hlive]
    exact (List.singleton_sublist.2 hbelow).append (List.Sublist.refl [x])

/-- What is further left is listed first in both. -/
theorem precedes_of_leftOf (h : F.LeftOf r x y) :
    Precedes (F.shape r).preorder x y ∧ Precedes (F.shape r).postorder x y := by
  obtain ⟨p, c, d, hp, hcd, hcx, hdy⟩ := h
  have hlive := contains_of_ancestor hp hr
  have hc := hF.contains_child (hcd.subset (List.mem_cons_self ..))
  have hd := hF.contains_child (hcd.subset (List.mem_cons_of_mem c (List.mem_singleton_self d)))
  constructor
  · refine List.Sublist.trans ?_ (hF.isInfix_preorder hp).sublist
    rw [hF.preorder_shape hlive]
    exact (hcd.flatMap ((hF.mem_preorder_shape_iff hc).2 hcx) ((hF.mem_preorder_shape_iff hd).2 hdy)).cons p
  · refine List.Sublist.trans ?_ (hF.isInfix_postorder hp).sublist
    rw [hF.postorder_shape hlive]
    exact (hcd.flatMap ((hF.mem_postorder_shape_iff hc).2 hcx)
      ((hF.mem_postorder_shape_iff hd).2 hdy)).trans (List.sublist_append_left _ _)

/-! ### Positions -/

theorem nodup_postorder_shape : (F.shape r).postorder.Nodup :=
  (F.shape r).postorder_perm_preorder.nodup_iff.2 (hF.nodup_preorder_shape hr)

theorem idxOf_lt_of_ancestor (hx : F.Ancestor r x) (hxy : F.Ancestor x y) (hne : x ≠ y) :
    (F.shape r).preorder.idxOf x < (F.shape r).preorder.idxOf y ∧
      (F.shape r).postorder.idxOf y < (F.shape r).postorder.idxOf x := by
  obtain ⟨hpre, hpost⟩ := hF.precedes_of_ancestor hr hx hxy hne
  exact ⟨hpre.idxOf_lt (hF.nodup_preorder_shape hr), hpost.idxOf_lt (hF.nodup_postorder_shape hr)⟩

theorem idxOf_lt_of_leftOf (h : F.LeftOf r x y) :
    (F.shape r).preorder.idxOf x < (F.shape r).preorder.idxOf y ∧
      (F.shape r).postorder.idxOf x < (F.shape r).postorder.idxOf y := by
  obtain ⟨hpre, hpost⟩ := hF.precedes_of_leftOf hr h
  exact ⟨hpre.idxOf_lt (hF.nodup_preorder_shape hr), hpost.idxOf_lt (hF.nodup_postorder_shape hr)⟩

/-- **Above is before in preorder and after in postorder.** In every other case one of the two orders is the other way
    round. -/
theorem proper_ancestor_iff_idxOf_lt (hx : F.Ancestor r x) (hy : F.Ancestor r y) :
    F.Ancestor x y ∧ x ≠ y ↔ (F.shape r).preorder.idxOf x < (F.shape r).preorder.idxOf y ∧
      (F.shape r).postorder.idxOf y < (F.shape r).postorder.idxOf x := by
  constructor
  · rintro ⟨hxy, hne⟩
    exact hF.idxOf_lt_of_ancestor hr hx hxy hne
  · rintro ⟨hbefore, hafter⟩
    have hne : x ≠ y := by
      rintro rfl
      omega
    refine ⟨?_, hne⟩
    rcases hF.side_cases hx hy with hxy | hyx | hxy | hyx
    · exact hxy
    · have hlt := (hF.idxOf_lt_of_ancestor hr hy hyx hne.symm).1
      omega
    · have hlt := (hF.idxOf_lt_of_leftOf hr hxy).2
      omega
    · have hlt := (hF.idxOf_lt_of_leftOf hr hyx).1
      omega

/-- **On two branches both orders agree.** -/
theorem idxOf_lt_iff_of_not_ancestor (hx : F.Ancestor r x) (hy : F.Ancestor r y) (hxy : ¬ F.Ancestor x y)
    (hyx : ¬ F.Ancestor y x) :
    (F.shape r).preorder.idxOf x < (F.shape r).preorder.idxOf y
      ↔ (F.shape r).postorder.idxOf x < (F.shape r).postorder.idxOf y := by
  rcases hF.side_cases hx hy with h | h | h | h
  · exact absurd h hxy
  · exact absurd h hyx
  · have hlt := hF.idxOf_lt_of_leftOf hr h
    omega
  · have hlt := hF.idxOf_lt_of_leftOf hr h
    omega

end

theorem isAncestorOf_eq_false_iff (hF : F.WellFormed) (hy : F.contains y = true) :
    F.isAncestorOf x (some y) = .ok false ↔ ¬ F.Ancestor x y := by
  rw [hF.isAncestorOf_eq x hy, Except.ok.injEq, decide_eq_false_iff_not, hF.mem_chain_iff hy]

end WellFormed

/-- **Order laws of the depth-first walks.** In the tree below `r` each subtree is listed in one piece, which is its own
    listing and begins, in preorder, or ends, in postorder, with its top. One node is properly above another exactly if
    it comes before the other in preorder and after it in postorder. Two nodes of which neither is above the other
    come in the same order in both. -/
theorem depthFirst_laws (hF : F.Reachable) (hr : F.contains r = true) :
    ∃ pre post, F.preorder r = .ok pre ∧ F.postorder r = .ok post ∧ pre.Nodup ∧ post.Nodup ∧
      (∀ x, F.Ancestor r x → ∃ preBelow postBelow, F.preorder x = .ok preBelow ∧ F.postorder x = .ok postBelow ∧
        (preBelow <:+: pre ∧ preBelow.head? = some x) ∧ (postBelow <:+: post ∧ postBelow.getLast? = some x) ∧
        ∀ z, (z ∈ preBelow ↔ F.Ancestor x z) ∧ (z ∈ postBelow ↔ F.Ancestor x z)) ∧
      ∀ x y, F.Ancestor r x → F.Ancestor r y →
        (F.isAncestorOf x (some y) = .ok true ∧ x ≠ y
          ↔ pre.idxOf x < pre.idxOf y ∧ post.idxOf y < post.idxOf x) ∧
        (F.isAncestorOf x (some y) = .ok false → F.isAncestorOf y (some x) = .ok false →
          (pre.idxOf x < pre.idxOf y ↔ post.idxOf x < post.idxOf y)) := by
  have hF := hF.wellFormed
  refine ⟨_, _, (preorder_eq hF hr).1, (postorder_eq hF hr).1, hF.nodup_preorder_shape hr,
    hF.nodup_postorder_shape hr, ?_, ?_⟩
  · intro x hx
    have hlive := WellFormed.contains_of_ancestor hx hr
    have htop := hF.value_shape hlive
    refine ⟨_, _, (preorder_eq hF hlive).1, (postorder_eq hF hlive).1, ⟨hF.isInfix_preorder hx, ?_⟩,
      ⟨hF.isInfix_postorder hx, ?_⟩, fun z => ⟨hF.mem_preorder_shape_iff hlive, hF.mem_postorder_shape_iff hlive⟩⟩
    · rw [Tree.head?_preorder, htop]
    · rw [Tree.getLast?_postorder, htop]
  · intro x y hx hy
    have hxlive := WellFormed.contains_of_ancestor hx hr
    have hylive := WellFormed.contains_of_ancestor hy hr
    rw [hF.isAncestorOf_eq_true_iff hylive, hF.isAncestorOf_eq_false_iff hylive, hF.isAncestorOf_eq_false_iff hxlive]
    exact ⟨hF.proper_ancestor_iff_idxOf_lt hr hx hy, hF.idxOf_lt_iff_of_not_ancestor hr hx hy⟩

/-- On a node with two children, the first of which has one: the subtree of the first child is listed in one piece, and
    the node below it is left of the second child in both orders. -/
theorem depthFirst_laws_of_four :
    let F := (empty : Forest Nat).afterAll
      [.create 7, .create 8, .create 9, .create 6, .add ⟨0, 0⟩ ⟨1, 0⟩, .add ⟨0, 0⟩ ⟨2, 0⟩, .add ⟨1, 0⟩ ⟨3, 0⟩]
    let pre : List NodeId := [⟨0, 0⟩, ⟨1, 0⟩, ⟨3, 0⟩, ⟨2, 0⟩]
    let post : List NodeId := [⟨3, 0⟩, ⟨1, 0⟩, ⟨2, 0⟩, ⟨0, 0⟩]
    F.Reachable ∧ F.contains ⟨0, 0⟩ = true ∧ F.preorder ⟨0, 0⟩ = .ok pre ∧ F.postorder ⟨0, 0⟩ = .ok post ∧
      (F.preorder ⟨1, 0⟩ = .ok [⟨1, 0⟩, ⟨3, 0⟩] ∧ [⟨1, 0⟩, ⟨3, 0⟩] <:+: pre) ∧
      F.isAncestorOf ⟨1, 0⟩ (some ⟨3, 0⟩) = .ok true ∧
      (pre.idxOf ⟨3, 0⟩ < pre.idxOf ⟨2, 0⟩ ↔ post.idxOf ⟨3, 0⟩ < post.idxOf ⟨2, 0⟩) := by
  intro F pre post
  have hF : F.Reachable := ⟨_, rfl⟩
  have hfirst : F.Ancestor ⟨0, 0⟩ ⟨1, 0⟩ := ancestor_of_parentOf (by decide)
  have hsecond : F.Ancestor ⟨0, 0⟩ ⟨2, 0⟩ := ancestor_of_parentOf (by decide)
  have hbelow : F.Ancestor ⟨0, 0⟩ ⟨3, 0⟩ := hfirst.trans (ancestor_of_parentOf (by decide))
  obtain ⟨l, m, hpre, hpost, -, -, hpieces, hpairs⟩ := depthFirst_laws hF (r := ⟨0, 0⟩) (by decide)
  obtain rfl : l = pre := Except.ok.inj (hpre.symm.trans rfl)
  obtain rfl : m = post := Except.ok.inj (hpost.symm.trans rfl)
  obtain ⟨piece, -, hpiece, -, ⟨hpart, -⟩, -⟩ := hpieces ⟨1, 0⟩ hfirst
  obtain rfl : piece = [⟨1, 0⟩, ⟨3, 0⟩] := Except.ok.inj (hpiece.symm.trans rfl)
  have habove := (hpairs ⟨1, 0⟩ ⟨3, 0⟩ hfirst hbelow).1.2 ⟨by decide, by decide⟩
  exact ⟨hF, by decide, hpre, hpost, ⟨hpiece, hpart⟩, habove.1, (hpairs ⟨3, 0⟩ ⟨2, 0⟩ hbelow hsecond).2 rfl rfl⟩

end Grove.Forest
