import Grove.Proofs.Forest.Moves

/-!
# `Proofs.Forest.Growth` — one more node

A forest *grows* by a new node, which is a root or the last child of a node that is there. This is what making a
node does (`grows_create`), and making one and adding it to a parent (`grows_add`). Nodes that were there keep
their levels, their values and, unless the new node is somewhere below, their trees.

Where the new node comes to stand in a preorder is said for nodes on its right-hand edge: if one gets from `x` to
the new node's parent through last children only, then the new node is the last one listed below `x`
(`preorder_of_edge`).
-/

namespace Grove.Forest

variable {α : Type} {F G : Forest α} {above : Option NodeId} {n : NodeId} {v : α}

/-- `G` is `F` with one more node: `n`, of value `v`, as the last child of `above` or as a root. -/
structure Grows (F : Forest α) (above : Option NodeId) (n : NodeId) (v : α) (G : Forest α) : Prop where
  wellFormed : G.WellFormed
  fresh : F.contains n = false
  contains_iff : ∀ x, G.contains x = true ↔ x = n ∨ F.contains x = true
  parentOf_eq : ∀ x, G.parentOf x = if x = n then above else F.parentOf x
  childrenOf_eq : ∀ x, G.childrenOf x = if above = some x then F.childrenOf x ++ [n] else F.childrenOf x
  value_eq : ∀ x, (G.get? x).map Node.value = if x = n then some v else (F.get? x).map Node.value

/-! ## Making a node and adding it -/

/-- Making a node adds a root, which is no structural write. -/
theorem grows_create (hF : F.WellFormed) (v : α) :
    ∃ n G, create v F = .ok n G ∧ G.generation = F.generation ∧ Grows F none n v G := by
  have hfresh : F.contains (F.nodes.insert ⟨v, none, []⟩).1 = false := by
    rw [← get?_eq_none_iff]
    exact hF.sound.get?_insert_new _
  refine ⟨_, _, create_eq v F, rfl, ?_, hfresh, ?_, ?_, ?_, ?_⟩
  · exact (Effect.grown v).wellFormed hF
  · intro x
    rw [Forest.contains_iff, Forest.contains_iff, get?_grown hF]
    split <;> simp_all
  · intro x
    rw [parentOf_grown hF]
    split
    · rename_i hx
      rw [hx]
      exact parentOf_of_not_contains hfresh
    · rfl
  · intro x
    rw [childrenOf_grown hF, if_neg (by simp)]
  · intro x
    rw [get?_grown hF]
    split <;> rfl

/-- A node made just before is no ancestor of another. -/
theorem Grows.not_ancestor (h : Grows F none n v G) (hF : F.WellFormed) {p : NodeId}
    (hp : F.contains p = true) : ¬ G.Ancestor n p := by
  intro hup
  -- otherwise it would be that node, or have a child, which would link to a name that is not there
  rcases ancestor_iff_child.1 hup with rfl | ⟨c, hc, -⟩
  · rw [h.fresh] at hp
    cases hp
  · rw [h.parentOf_eq] at hc
    split at hc
    · cases hc
    · have hn := hF.contains_parent hc
      rw [h.fresh] at hn
      cases hn

/-- Adding it to a parent makes it the last child there, which is one. -/
theorem grows_add (hF : F.WellFormed) (h : Grows F none n v G) {p : NodeId} (hp : F.contains p = true) :
    ∃ H, add p n G = .ok () H ∧ H.generation = G.generation + 1 ∧ Grows F (some p) n v H := by
  have hG := h.wellFormed
  have hpG : G.contains p = true := (h.contains_iff p).2 (.inr hp)
  have hnG : G.contains n = true := (h.contains_iff n).2 (.inl rfl)
  have hroot : G.parentOf n = none := by rw [h.parentOf_eq, if_pos rfl]
  have hup := h.not_ancestor hF hp
  have hchildren : ∀ x, G.childrenOf x = F.childrenOf x := fun x => by
    rw [h.childrenOf_eq, if_neg (by simp)]
  have hothers : G.others p n = F.childrenOf p := by
    rw [hG.others_eq, hG.erase_of_parentOf_ne (by simp [hroot]), hchildren]
  obtain ⟨H, hplaced⟩ : ∃ H, insert p (G.others p n).length n G = .ok () H :=
    ⟨_, hG.insert_of_fits hpG hnG hup (Nat.le_refl _)⟩
  obtain ⟨hmoved, hlist⟩ := hG.moved_of_insert hplaced
  rw [List.insertIdx_length_self, hothers] at hlist
  refine ⟨H, (hG.add_eq_insert p n).trans hplaced, hmoved.generation_eq, (hG.cut_of_insert hplaced).1, h.fresh,
    ?_, ?_, ?_, ?_⟩
  · intro x
    rw [hmoved.contains_eq, h.contains_iff]
  · intro x
    by_cases hx : x = n
    · rw [hx, if_pos rfl, hmoved.parentOf_moved]
    · rw [if_neg hx, hmoved.parentOf_other x hx, h.parentOf_eq, if_neg hx]
  · intro x
    by_cases hx : some p = some x
    · obtain rfl := Option.some.inj hx
      rw [if_pos rfl, hlist]
    · rw [if_neg hx, hmoved.childrenOf_other x (by simp [hroot]) hx, hchildren]
  · intro x
    rw [hmoved.value_eq, h.value_eq]

/-! ## What stays -/

namespace Grows

variable (h : Grows F above n v G)

include h

theorem ne_of_contains {x : NodeId} (hx : F.contains x = true) : x ≠ n := by
  rintro rfl
  rw [h.fresh] at hx
  cases hx

theorem contains_of_contains {x : NodeId} (hx : F.contains x = true) : G.contains x = true :=
  (h.contains_iff x).2 (.inr hx)

theorem contains_new : G.contains n = true :=
  (h.contains_iff n).2 (.inl rfl)

theorem climb_of_climb (hF : F.WellFormed) {x : NodeId} {l : List NodeId} (hx : F.contains x = true)
    (hclimb : F.Climb x l) : G.Climb x l := by
  induction hclimb with
  | @root x hroot =>
    refine .root ?_
    rw [h.parentOf_eq, if_neg (h.ne_of_contains hx), hroot]
  | @hop x p l hparent _ ih =>
    refine .hop ?_ (ih (hF.contains_parent hparent))
    rw [h.parentOf_eq, if_neg (h.ne_of_contains hx), hparent]

/-- Nodes stay on their levels. -/
theorem levelOf_eq (hF : F.WellFormed) {x : NodeId} (hx : F.contains x = true) :
    G.levelOf x = F.levelOf x := by
  have hclimb := h.climb_of_climb hF hx (hF.climb_chain hx)
  rw [levelOf, levelOf, h.wellFormed.chain_of_climb hclimb (h.contains_of_contains hx)]

/-- The new node has no children. -/
theorem childrenOf_new (habove : ∀ p, above = some p → F.contains p = true) :
    G.childrenOf n = [] := by
  have hne : above ≠ some n := fun heq => h.ne_of_contains (habove n heq) rfl
  rw [h.childrenOf_eq, if_neg hne, childrenOf_of_not_contains h.fresh]

theorem valueOf_eq [Inhabited α] (x : NodeId) : G.valueOf x = if x = n then v else F.valueOf x := by
  rw [valueOf, h.value_eq]
  split <;> rfl

/-- The level of the new node. -/
theorem levelOf_new (hF : F.WellFormed) (habove : ∀ p, above = some p → F.contains p = true) :
    G.levelOf n = (above.map fun p => F.levelOf p + 1).getD 0 := by
  have hparent : G.parentOf n = above := by rw [h.parentOf_eq, if_pos rfl]
  cases above with
  | none => exact h.wellFormed.levelOf_of_root h.contains_new hparent
  | some p =>
    rw [h.wellFormed.levelOf_child hparent, h.levelOf_eq hF (habove p rfl)]
    rfl

/-- A tree stays as it is unless the new node comes to stand in it. -/
theorem shape_eq (hF : F.WellFormed) {x : NodeId} (hx : F.contains x = true)
    (hbelow : ∀ p, above = some p → ¬ F.Ancestor x p) : G.shape x = F.shape x := by
  apply hF.shape_congr h.wellFormed hx
  · intro y hy
    exact h.contains_of_contains (WellFormed.contains_of_ancestor hy hx)
  · intro y hy
    rw [h.childrenOf_eq, if_neg fun heq => hbelow y heq hy]

/-- The new node is a tree of its own. -/
theorem preorder_new (habove : ∀ p, above = some p → F.contains p = true) : (G.shape n).preorder = [n] := by
  rw [h.wellFormed.preorder_shape h.contains_new, h.childrenOf_new habove]
  rfl

end Grows

/-! ## The right-hand edge -/

/-- `b` is the last child of `a`. -/
def LastChild (F : Forest α) (a b : NodeId) : Prop :=
  (F.childrenOf a).getLast? = some b

theorem LastChild.split {a b : NodeId} (h : F.LastChild a b) : ∃ before, F.childrenOf a = before ++ [b] :=
  List.getLast?_eq_some_iff.1 h

theorem WellFormed.parentOf_of_lastChild (hF : F.WellFormed) {a b : NodeId} (h : F.LastChild a b) :
    F.parentOf b = some a := by
  obtain ⟨before, hsplit⟩ := h.split
  rw [← hF.mem_childrenOf_iff, hsplit]
  exact List.mem_append_right _ (List.mem_singleton_self b)

/-- The end of an edge is below its beginning. -/
theorem WellFormed.ancestor_of_edge (hF : F.WellFormed) {x p : NodeId} {l : List NodeId}
    (hedge : (x :: l).IsChain F.LastChild) (hend : (x :: l).getLast? = some p) : F.Ancestor x p := by
  induction l generalizing x with
  | nil =>
    have hxp : x = p := Option.some.inj hend
    subst hxp
    exact ancestor_refl x
  | cons y l ih =>
    rw [List.isChain_cons_cons] at hedge
    rw [List.getLast?_cons_cons] at hend
    exact (ancestor_of_parentOf (hF.parentOf_of_lastChild hedge.1)).trans (ih hedge.2 hend)

/-- The nodes on an edge are there. -/
theorem WellFormed.contains_of_edge (hF : F.WellFormed) {x : NodeId} {l : List NodeId}
    (hx : F.contains x = true) (hedge : (x :: l).IsChain F.LastChild) :
    ∀ y ∈ x :: l, F.contains y = true := by
  induction l generalizing x with
  | nil =>
    intro y hy
    rwa [List.mem_singleton.1 hy]
  | cons z l ih =>
    rw [List.isChain_cons_cons] at hedge
    have hz := contains_of_parentOf (hF.parentOf_of_lastChild hedge.1)
    intro y hy
    rcases List.mem_cons.1 hy with rfl | hy
    · exact hx
    · exact ih hz hedge.2 y hy

/-- The end of an edge is not above it. -/
theorem WellFormed.ne_of_lastChild (hF : F.WellFormed) {x y p : NodeId} (hlast : F.LastChild x y)
    (hyp : F.Ancestor y p) : (some p : Option NodeId) ≠ some x := by
  intro heq
  obtain rfl := Option.some.inj heq
  exact hF.not_ancestor_parent (hF.parentOf_of_lastChild hlast) hyp

namespace Grows

variable {p x : NodeId}

/-- The parent of the new node is there. -/
theorem contains_above (hp : F.contains p = true) : ∀ q, some p = some q → F.contains q = true := by
  rintro q ⟨⟩
  exact hp

theorem shape_of_not_ancestor (h : Grows F (some p) n v G) (hF : F.WellFormed) (hx : F.contains x = true)
    (hxp : ¬ F.Ancestor x p) : G.shape x = F.shape x := by
  apply h.shape_eq hF hx
  rintro q ⟨⟩
  exact hxp

/-- The old children of the new node's parent keep their trees, and the new node is a leaf after them. -/
theorem preorder_of_parent (h : Grows F (some p) n v G) (hF : F.WellFormed) (hp : F.contains p = true) :
    (G.shape p).preorder = (F.shape p).preorder ++ [n] := by
  have hold : ∀ c ∈ F.childrenOf p, (G.shape c).preorder = (F.shape c).preorder := by
    intro c hc
    have hcp := hF.not_ancestor_parent ((hF.mem_childrenOf_iff p c).1 hc)
    rw [h.shape_of_not_ancestor hF (hF.contains_child hc) hcp]
  rw [h.wellFormed.preorder_shape (h.contains_of_contains hp), hF.preorder_shape hp, h.childrenOf_eq, if_pos rfl,
    List.flatMap_append, List.flatMap_congr hold, List.flatMap_singleton, h.preorder_new (contains_above hp)]
  rfl

/-- **A new last child on the right-hand edge is listed last.** -/
theorem preorder_of_edge (h : Grows F (some p) n v G) (hF : F.WellFormed) (hp : F.contains p = true)
    {l : List NodeId} (hx : F.contains x = true) (hedge : (x :: l).IsChain F.LastChild)
    (hend : (x :: l).getLast? = some p) : (G.shape x).preorder = (F.shape x).preorder ++ [n] := by
  induction l generalizing x with
  | nil =>
    have hxp : x = p := Option.some.inj hend
    subst hxp
    exact h.preorder_of_parent hF hp
  | cons y l ih =>
    rw [List.isChain_cons_cons] at hedge
    rw [List.getLast?_cons_cons] at hend
    obtain ⟨hlast, hedge⟩ := hedge
    obtain ⟨before, hsplit⟩ := hlast.split
    have hyp := hF.ancestor_of_edge hedge hend
    have hsiblings : ∀ c ∈ before ++ [y], F.parentOf c = some x := by
      intro c hc
      rwa [← hF.mem_childrenOf_iff, hsplit]
    -- no sibling before the last child has the new node below it
    have hold : ∀ c ∈ before, (G.shape c).preorder = (F.shape c).preorder := by
      intro c hc
      have hlive := contains_of_parentOf (hsiblings c (List.mem_append_left _ hc))
      have hcp := hF.not_ancestor_of_before hsiblings (hsplit ▸ hF.nodup_childrenOf x) hyp hc
      rw [h.shape_of_not_ancestor hF hlive hcp]
    have hy := contains_of_parentOf (hF.parentOf_of_lastChild hlast)
    rw [h.wellFormed.preorder_shape (h.contains_of_contains hx), hF.preorder_shape hx, h.childrenOf_eq,
      if_neg (hF.ne_of_lastChild hlast hyp), hsplit, List.flatMap_append, List.flatMap_append,
      List.flatMap_congr hold, List.flatMap_singleton, List.flatMap_singleton, ih hy hedge hend]
    simp

/-- The new node prolongs the edge. -/
theorem edge_append (h : Grows F (some p) n v G) (hF : F.WellFormed) {l : List NodeId}
    (hedge : (x :: l).IsChain F.LastChild) (hend : (x :: l).getLast? = some p) :
    (x :: l ++ [n]).IsChain G.LastChild := by
  induction l generalizing x with
  | nil =>
    have hxp : x = p := Option.some.inj hend
    subst hxp
    have hlast : G.LastChild x n := by
      rw [LastChild, h.childrenOf_eq, if_pos rfl, List.getLast?_concat]
    exact List.isChain_cons_cons.2 ⟨hlast, .singleton n⟩
  | cons y l ih =>
    rw [List.isChain_cons_cons] at hedge
    rw [List.getLast?_cons_cons] at hend
    have hfirst : G.LastChild x y := by
      rw [LastChild, h.childrenOf_eq, if_neg (hF.ne_of_lastChild hedge.1 (hF.ancestor_of_edge hedge.2 hend))]
      exact hedge.1
    exact List.isChain_cons_cons.2 ⟨hfirst, ih hedge.2 hend⟩

end Grows

end Grove.Forest
