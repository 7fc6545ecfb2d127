import Grove.Proofs.Forest.Rewire
import Grove.Proofs.Tree.Listing
import Mathlib.Data.List.Nodup

/-!
# `Proofs.Forest.Shape` — subtrees as trees of names

`shape n` is the tree of the names below `n`, read off along the child links: `n` on top, and the shapes of its
children below it from left to right (`shape_eq`). It holds the nodes that have `n` as an ancestor
(`mem_preorder_shape_iff`), each once (`nodup_preorder_shape`), and depends on nothing but the children of these
nodes (`shape_congr`).
-/

namespace Grove.Forest

variable {α : Type} {F G : Forest α}

/-- The tree of names below `n`, at most `fuel` levels below it. -/
def shapeWithin (F : Forest α) : Nat → NodeId → Tree NodeId
  | 0, n => .node n []
  | fuel + 1, n => .node n ((F.childrenOf n).map (F.shapeWithin fuel))

/-- The tree of names below `n`. -/
def shape (F : Forest α) (n : NodeId) : Tree NodeId :=
  F.shapeWithin F.size n

@[simp] theorem shape_bumped (F : Forest α) (n : NodeId) : F.bumped.shape n = F.shape n := by
  have hwithin : ∀ fuel n, F.bumped.shapeWithin fuel n = F.shapeWithin fuel n := by
    intro fuel
    induction fuel with
    | zero => exact fun _ => rfl
    | succ fuel ih =>
      intro n
      simp only [shapeWithin, childrenOf_bumped]
      rw [List.map_congr_left fun c _ => ih c]
  exact hwithin F.size n

namespace WellFormed

/-- Fuel for the levels below `n` is enough. -/
theorem shapeWithin_eq (hF : F.WellFormed) {n : NodeId} (hn : F.contains n = true) (k l : Nat)
    (hk : F.size - F.levelOf n ≤ k) (hl : F.size - F.levelOf n ≤ l) : F.shapeWithin k n = F.shapeWithin l n := by
  induction n, hn using hF.induction_down generalizing k l with
  | step n hn ih =>
    have hlt := hF.levelOf_lt_size hn
    obtain ⟨k, rfl⟩ : ∃ j, k = j + 1 := ⟨k - 1, by omega⟩
    obtain ⟨l, rfl⟩ : ∃ j, l = j + 1 := ⟨l - 1, by omega⟩
    simp only [shapeWithin]
    congr 1
    apply List.map_congr_left
    intro c hc
    have hlevel := hF.levelOf_child ((hF.mem_childrenOf_iff n c).1 hc)
    exact ih c hc k l (by omega) (by omega)

/-- **The shape of a node has the shapes of its children below it.** -/
theorem shape_eq (hF : F.WellFormed) {n : NodeId} (hn : F.contains n = true) :
    F.shape n = .node n ((F.childrenOf n).map F.shape) := by
  have hlt := hF.levelOf_lt_size hn
  obtain ⟨s, hs⟩ : ∃ s, F.size = s + 1 := ⟨F.size - 1, by omega⟩
  have hshape : F.shape n = F.shapeWithin (s + 1) n := by rw [shape, hs]
  rw [hshape, shapeWithin]
  congr 1
  apply List.map_congr_left
  intro c hc
  have hlevel := hF.levelOf_child ((hF.mem_childrenOf_iff n c).1 hc)
  exact hF.shapeWithin_eq (hF.contains_child hc) s F.size (by omega) (by omega)

theorem value_shape (hF : F.WellFormed) {n : NodeId} (hn : F.contains n = true) : (F.shape n).value = n := by
  rw [hF.shape_eq hn, Tree.value]

theorem children_shape (hF : F.WellFormed) {n : NodeId} (hn : F.contains n = true) :
    (F.shape n).children = (F.childrenOf n).map F.shape := by
  rw [hF.shape_eq hn, Tree.children]

theorem preorder_shape (hF : F.WellFormed) {n : NodeId} (hn : F.contains n = true) :
    (F.shape n).preorder = n :: (F.childrenOf n).flatMap fun c => (F.shape c).preorder := by
  rw [hF.shape_eq hn, Tree.preorder_node, List.flatMap_map]

theorem postorder_shape (hF : F.WellFormed) {n : NodeId} (hn : F.contains n = true) :
    (F.shape n).postorder = (F.childrenOf n).flatMap (fun c => (F.shape c).postorder) ++ [n] := by
  rw [hF.shape_eq hn, Tree.postorder_node, List.flatMap_map]

/-- A shape holds the nodes below its top. -/
theorem mem_preorder_shape_iff (hF : F.WellFormed) {n x : NodeId} (hn : F.contains n = true) :
    x ∈ (F.shape n).preorder ↔ F.Ancestor n x := by
  induction n, hn using hF.induction_down with
  | step n hn ih =>
    rw [hF.preorder_shape hn, ancestor_iff_child, List.mem_cons, List.mem_flatMap]
    refine or_congr eq_comm (exists_congr fun c => ?_)
    rw [hF.mem_childrenOf_iff]
    exact and_congr_right fun hlink => ih c ((hF.mem_childrenOf_iff n c).2 hlink)

/-- Two ancestors of one node lie on one chain. -/
theorem ancestor_total {a b x : NodeId} (ha : F.Ancestor a x) (hb : F.Ancestor b x) :
    F.Ancestor a b ∨ F.Ancestor b a := by
  induction ha with
  | refl => exact .inr hb
  | @tail p c hap hlink ih =>
    rcases ancestor_iff.1 hb with rfl | ⟨q, hq, hbq⟩
    · exact .inl (Ancestor.trans hap (ancestor_of_parentOf hlink))
    · obtain rfl : p = q := Option.some.inj (Eq.trans (Eq.symm hlink) hq)
      exact ih hbq

/-- No node is below two roots, or below two children of one node. -/
theorem eq_of_parentOf_eq (hF : F.WellFormed) {a b x : NodeId} (hparent : F.parentOf a = F.parentOf b)
    (hax : F.Ancestor a x) (hbx : F.Ancestor b x) : a = b := by
  have hside : ∀ {c d}, F.parentOf c = F.parentOf d → F.Ancestor c d → c = d := by
    intro c d hsame hcd
    rcases ancestor_iff.1 hcd with rfl | ⟨p, hp, hcp⟩
    · rfl
    · exact absurd hcp (hF.not_ancestor_parent (hsame.trans hp))
  rcases ancestor_total hax hbx with h | h
  · exact hside hparent h
  · exact (hside hparent.symm h).symm

/-- Of roots in a row, or of the children of one node, only the last one is above what is below the last one. -/
theorem not_ancestor_of_before (hF : F.WellFormed) {before : List NodeId} {y p c : NodeId} {above : Option NodeId}
    (hparent : ∀ z ∈ before ++ [y], F.parentOf z = above) (hnodup : (before ++ [y]).Nodup)
    (hyp : F.Ancestor y p) (hc : c ∈ before) : ¬ F.Ancestor c p := by
  intro hcp
  have hy := hparent y (List.mem_append_right _ (List.mem_singleton_self y))
  have hsame := (hparent c (List.mem_append_left _ hc)).trans hy.symm
  obtain rfl := hF.eq_of_parentOf_eq hsame hcp hyp
  rw [List.nodup_append] at hnodup
  exact hnodup.2.2 c hc c (List.mem_singleton_self c) rfl

/-- A shape holds no node twice. -/
theorem nodup_preorder_shape (hF : F.WellFormed) {n : NodeId} (hn : F.contains n = true) :
    (F.shape n).preorder.Nodup := by
  induction n, hn using hF.induction_down with
  | step n hn ih =>
    have hlink : ∀ c ∈ F.childrenOf n, F.parentOf c = some n := fun c hc => (hF.mem_childrenOf_iff n c).1 hc
    rw [hF.preorder_shape hn, List.nodup_cons, List.nodup_flatMap]
    refine ⟨?_, ih, ?_⟩
    · -- the top is not below one of its children
      intro hmem
      obtain ⟨c, hc, hnc⟩ := List.mem_flatMap.1 hmem
      rw [hF.mem_preorder_shape_iff (hF.contains_child hc)] at hnc
      exact hF.not_ancestor_parent (hlink c hc) hnc
    · -- nothing is below two of them
      apply (hF.nodup_childrenOf n).imp_of_mem
      intro c d hc hd hne x hxc hxd
      rw [hF.mem_preorder_shape_iff (hF.contains_child hc)] at hxc
      rw [hF.mem_preorder_shape_iff (hF.contains_child hd)] at hxd
      exact hne (hF.eq_of_parentOf_eq ((hlink c hc).trans (hlink d hd).symm) hxc hxd)

theorem contains_of_mem_shape (hF : F.WellFormed) {n x : NodeId} (hn : F.contains n = true)
    (hx : x ∈ (F.shape n).preorder) : F.contains x = true :=
  contains_of_ancestor ((hF.mem_preorder_shape_iff hn).1 hx) hn

/-- A shape is no larger than the forest. -/
theorem length_preorder_shape_le (hF : F.WellFormed) {n : NodeId} (hn : F.contains n = true) :
    (F.shape n).preorder.length ≤ F.size :=
  hF.sound.length_le_size (hF.nodup_preorder_shape hn) fun _ hx => hF.contains_of_mem_shape hn hx

/-- The levels of a forest grade its shapes. -/
theorem graded_shape (hF : F.WellFormed) {n : NodeId} (hn : F.contains n = true) :
    Tree.Graded F.levelOf (F.levelOf n) (F.shape n) := by
  induction n, hn using hF.induction_down with
  | step n hn ih =>
    rw [hF.shape_eq hn]
    apply Tree.Graded.node rfl
    intro t ht
    obtain ⟨c, hc, rfl⟩ := List.mem_map.1 ht
    rw [← hF.levelOf_child ((hF.mem_childrenOf_iff n c).1 hc)]
    exact ih c hc

/-- Where the children of all nodes below `n` are the same, so is the shape. -/
theorem shape_congr (hF : F.WellFormed) (hG : G.WellFormed) {n : NodeId} (hn : F.contains n = true)
    (hlive : ∀ x, F.Ancestor n x → G.contains x = true)
    (hchildren : ∀ x, F.Ancestor n x → G.childrenOf x = F.childrenOf x) : G.shape n = F.shape n := by
  induction n, hn using hF.induction_down with
  | step n hn ih =>
    rw [hG.shape_eq (hlive n (ancestor_refl n)), hF.shape_eq hn, hchildren n (ancestor_refl n)]
    congr 1
    apply List.map_congr_left
    intro c hc
    have hdown := ancestor_of_parentOf ((hF.mem_childrenOf_iff n c).1 hc)
    exact ih c hc (fun x hx => hlive x (hdown.trans hx)) (fun x hx => hchildren x (hdown.trans hx))

end WellFormed

end Grove.Forest
