import Grove.Forest.Basic
import Grove.Proofs.Arena
import Mathlib.Logic.Relation
import Mathlib.Order.WellFounded

/-!
# `Proofs.Forest.Links` — well-formed forests

Links are read off a forest as two total functions, `parentOf` and `childrenOf`, which answer with nothing at a
name that does not resolve. A forest is *well-formed* if its arena is sound and its links are those of ordered
trees: a child is listed by its parent, once, and climbing along parent links comes to an end. That links never
dangle is then a consequence (`contains_of_parentOf`, `contains_of_mem_childrenOf`), since a name with a link
resolves and each link is found from both of its ends.

The list of roots holds the nodes without a parent (`mem_roots_iff`), in the order of their slots
(`pairwise_roots`).
-/

namespace Grove.Forest

variable {α : Type} {F : Forest α}

/-! ## Links -/

/-- The parent of `n`; `none` for a root and for a name that does not resolve. -/
def parentOf (F : Forest α) (n : NodeId) : Option NodeId :=
  (F.get? n).bind Node.parent

/-- The children of `n` from left to right; none for a leaf and for a name that does not resolve. -/
def childrenOf (F : Forest α) (n : NodeId) : List NodeId :=
  ((F.get? n).map Node.children).getD []

/-- `p` is the parent of `c`. -/
def Link (F : Forest α) (p c : NodeId) : Prop :=
  F.parentOf c = some p

/-- `a` is `n` or met when climbing from `n`. -/
def Ancestor (F : Forest α) : NodeId → NodeId → Prop :=
  Relation.ReflTransGen F.Link

/-- A sound arena, with links that form ordered trees. -/
structure WellFormed (F : Forest α) : Prop where
  sound : F.nodes.Sound
  mem_childrenOf_iff : ∀ p c, c ∈ F.childrenOf p ↔ F.parentOf c = some p
  nodup_childrenOf : ∀ p, (F.childrenOf p).Nodup
  wellFounded : WellFounded F.Link

theorem parentOf_of_get? {n : NodeId} {node : Node α} (h : F.get? n = some node) :
    F.parentOf n = node.parent := by
  simp [parentOf, h]

theorem childrenOf_of_get? {n : NodeId} {node : Node α} (h : F.get? n = some node) :
    F.childrenOf n = node.children := by
  simp [childrenOf, h]

theorem contains_of_get? {n : NodeId} {node : Node α} (h : F.get? n = some node) : F.contains n = true :=
  contains_iff.2 ⟨node, h⟩

theorem get?_eq_none_iff {n : NodeId} : F.get? n = none ↔ F.contains n = false := by
  simp [contains, get?, Arena.contains]

theorem lookup_of_contains {n : NodeId} (hn : F.contains n = true) :
    ∃ node, F.get? n = some node ∧ F.lookup n = .ok node := by
  obtain ⟨node, hnode⟩ := contains_iff.1 hn
  exact ⟨node, hnode, lookup_eq_ok_iff.2 hnode⟩

theorem lookup_of_not_contains {n : NodeId} (hn : F.contains n = false) :
    F.lookup n = .error (.tree (.nodeNotFound n)) :=
  lookup_eq_error_iff.2 ⟨get?_eq_none_iff.2 hn, rfl⟩

/-- What begins by looking a node up fails if there is none, and may rely on it otherwise. -/
theorem lookup_then_eq {β : Type} {n : NodeId} {k : Node α → Except Failure β} {r : Except Failure β}
    (h : ∀ node, F.get? n = some node → k node = r) :
    (F.lookup n >>= k) = if F.contains n = false then .error (.tree (.nodeNotFound n)) else r := by
  by_cases hn : F.contains n = false
  · rw [if_pos hn, lookup_of_not_contains hn]
    rfl
  · rw [if_neg hn]
    rw [Bool.not_eq_false] at hn
    obtain ⟨node, hnode, hlookup⟩ := lookup_of_contains hn
    rw [hlookup]
    exact h node hnode

/-- A name with a parent resolves. -/
theorem contains_of_parentOf {p c : NodeId} (h : F.parentOf c = some p) : F.contains c = true := by
  obtain ⟨node, hnode, -⟩ := Option.bind_eq_some_iff.1 h
  exact contains_of_get? hnode

/-- A name with a child resolves. -/
theorem contains_of_mem_childrenOf {p c : NodeId} (h : c ∈ F.childrenOf p) : F.contains p = true := by
  unfold childrenOf at h
  cases hp : F.get? p with
  | none => simp [hp] at h
  | some node => exact contains_of_get? hp

theorem contains_of_getElem? {p c : NodeId} {k : Nat} (h : (F.childrenOf p)[k]? = some c) : F.contains p = true :=
  contains_of_mem_childrenOf (List.mem_of_getElem? h)

theorem parentOf_of_not_contains {n : NodeId} (h : F.contains n = false) : F.parentOf n = none := by
  simp [parentOf, get?_eq_none_iff.2 h]

theorem childrenOf_of_not_contains {n : NodeId} (h : F.contains n = false) : F.childrenOf n = [] := by
  simp [childrenOf, get?_eq_none_iff.2 h]

theorem ancestor_refl (n : NodeId) : F.Ancestor n n :=
  Relation.ReflTransGen.refl

theorem Ancestor.trans {a b c : NodeId} (hab : F.Ancestor a b) (hbc : F.Ancestor b c) : F.Ancestor a c :=
  Relation.ReflTransGen.trans hab hbc

theorem ancestor_of_parentOf {p c : NodeId} (h : F.parentOf c = some p) : F.Ancestor p c :=
  Relation.ReflTransGen.single h

/-- An ancestor of `n` is `n`, or an ancestor of its parent. -/
theorem ancestor_iff {a n : NodeId} :
    F.Ancestor a n ↔ a = n ∨ ∃ p, F.parentOf n = some p ∧ F.Ancestor a p := by
  constructor
  · intro h
    rcases Relation.ReflTransGen.cases_tail h with heq | ⟨p, hp, hlink⟩
    · exact .inl heq.symm
    · exact .inr ⟨p, hlink, hp⟩
  · rintro (rfl | ⟨p, hlink, hp⟩)
    · exact ancestor_refl a
    · exact hp.trans (ancestor_of_parentOf hlink)

/-- Only a node with a child in its place is a proper ancestor: `a` is `n`, or above `n` through a child of
    its own. -/
theorem ancestor_iff_child {a n : NodeId} :
    F.Ancestor a n ↔ a = n ∨ ∃ c, F.parentOf c = some a ∧ F.Ancestor c n := by
  constructor
  · intro h
    rcases Relation.ReflTransGen.cases_head h with heq | ⟨c, hlink, hc⟩
    · exact .inl heq
    · exact .inr ⟨c, hlink, hc⟩
  · rintro (rfl | ⟨c, hlink, hc⟩)
    · exact ancestor_refl a
    · exact (ancestor_of_parentOf hlink).trans hc

namespace WellFormed

/-- The parent of a node is there. -/
theorem contains_parent (hF : F.WellFormed) {p c : NodeId} (h : F.parentOf c = some p) :
    F.contains p = true :=
  contains_of_mem_childrenOf ((hF.mem_childrenOf_iff p c).2 h)

/-- The children of a node are there. -/
theorem contains_child (hF : F.WellFormed) {p c : NodeId} (h : c ∈ F.childrenOf p) : F.contains c = true :=
  contains_of_parentOf ((hF.mem_childrenOf_iff p c).1 h)

/-- A child at some position has its parent's name, and is there. -/
theorem parentOf_of_getElem? (hF : F.WellFormed) {p c : NodeId} {k : Nat} (h : (F.childrenOf p)[k]? = some c) :
    F.parentOf c = some p :=
  (hF.mem_childrenOf_iff p c).1 (List.mem_of_getElem? h)

theorem contains_child_of_getElem? (hF : F.WellFormed) {p c : NodeId} {k : Nat}
    (h : (F.childrenOf p)[k]? = some c) : F.contains c = true :=
  contains_of_parentOf (hF.parentOf_of_getElem? h)

theorem contains_ancestor (hF : F.WellFormed) {a n : NodeId} (h : F.Ancestor a n)
    (hn : F.contains n = true) : F.contains a = true := by
  induction h using Relation.ReflTransGen.head_induction_on with
  | refl => exact hn
  | head hlink _ _ => exact hF.contains_parent hlink

theorem contains_of_ancestor {a n : NodeId} (h : F.Ancestor a n) (ha : F.contains a = true) :
    F.contains n = true := by
  rcases ancestor_iff.1 h with rfl | ⟨p, hp, -⟩
  · exact ha
  · exact contains_of_parentOf hp

/-- No node is its own proper ancestor. -/
theorem acyclic (hF : F.WellFormed) (n : NodeId) : ¬ Relation.TransGen F.Link n n :=
  fun h => hF.wellFounded.transGen.irrefl.irrefl n h

/-- A node is no ancestor of its parent. -/
theorem not_ancestor_parent (hF : F.WellFormed) {p c : NodeId} (h : F.parentOf c = some p) :
    ¬ F.Ancestor c p :=
  fun hup => hF.acyclic c (Relation.TransGen.tail' hup h)

end WellFormed

/-! ## Roots -/

theorem mem_roots_iff {n : NodeId} : n ∈ F.roots ↔ F.contains n = true ∧ F.parentOf n = none := by
  unfold roots
  rw [List.mem_filterMap]
  constructor
  · rintro ⟨⟨m, node⟩, hmem, hroot⟩
    obtain ⟨hparent, heq⟩ := Option.ite_none_right_eq_some.1 hroot
    obtain rfl := Option.some.inj heq
    have hnode : F.get? m = some node := Arena.mem_entries_iff.1 hmem
    refine ⟨contains_of_get? hnode, ?_⟩
    rw [parentOf_of_get? hnode]
    exact Option.isNone_iff_eq_none.1 hparent
  · rintro ⟨hn, hroot⟩
    obtain ⟨node, hnode⟩ := contains_iff.1 hn
    rw [parentOf_of_get? hnode] at hroot
    exact ⟨(n, node), Arena.mem_entries_iff.2 hnode, if_pos (Option.isNone_iff_eq_none.2 hroot)⟩

/-- The roots stand in the order of their slots. -/
theorem pairwise_roots (F : Forest α) : F.roots.Pairwise fun m n => m.slot < n.slot := by
  have hnames := F.nodes.pairwise_names
  rw [Arena.names, List.pairwise_map] at hnames
  rw [roots, List.pairwise_filterMap]
  refine hnames.imp ?_
  rintro ⟨m, node⟩ ⟨n, node'⟩ hlt a ha b hb
  obtain ⟨-, ha⟩ := Option.ite_none_right_eq_some.1 ha
  obtain ⟨-, hb⟩ := Option.ite_none_right_eq_some.1 hb
  obtain rfl := Option.some.inj ha
  obtain rfl := Option.some.inj hb
  exact hlt

end Grove.Forest
