import Grove.Forest.Kin
import Grove.Proofs.Forest.Meet

/-!
# `Proofs.Forest.Kin` — the answers about children and siblings

On a well-formed forest every question about the children or the siblings of a node that is there is answered from
two things, the parent of a node and the list of its children; one equation for each question says how. A question
that looks a node up in the list of its parent finds it (`WellFormed.idxOf?_of_parentOf`), so none of them runs into
a link that is one-way.
-/

namespace Grove.Forest

variable {α : Type} {F : Forest α} {n : NodeId}

/-! ## Children -/

section

variable (hn : F.contains n = true)

include hn

theorem children_eq_ok : F.children n = .ok (F.childrenOf n) := by
  obtain ⟨node, hnode⟩ := contains_iff.1 hn
  simp [children, linked_eq_ok_iff.2 hnode, childrenOf_of_get? hnode, bind, Except.bind, pure, Except.pure]

theorem isRoot_eq_ok : F.isRoot n = .ok (F.parentOf n).isNone := by
  rw [isRoot, parent_eq_ok hn]
  rfl

theorem childCount_eq_ok : F.childCount n = .ok (F.childrenOf n).length := by
  rw [childCount, children_eq_ok hn]
  rfl

theorem isLeaf_eq_ok : F.isLeaf n = .ok (F.childrenOf n).isEmpty := by
  rw [isLeaf, children_eq_ok hn]
  rfl

theorem child_eq (i : Nat) :
    F.child n i = match (F.childrenOf n)[i]? with
      | some c => .ok c
      | none => .error (.tree (.outOfRange i (F.childrenOf n).length)) := by
  rw [child, children_eq_ok hn]
  rfl

theorem indexOf_eq_ok (c : NodeId) : F.indexOf n c = .ok ((F.childrenOf n).idxOf? c) := by
  rw [indexOf, children_eq_ok hn]
  rfl

theorem firstChild_eq :
    F.firstChild n = match (F.childrenOf n).head? with
      | some c => .ok c
      | none => .error (.tree (.emptyCollection n)) := by
  rw [firstChild, children_eq_ok hn]
  rfl

theorem lastChild_eq :
    F.lastChild n = match (F.childrenOf n).getLast? with
      | some c => .ok c
      | none => .error (.tree (.emptyCollection n)) := by
  rw [lastChild, children_eq_ok hn]
  rfl

theorem childAfter_eq (c : NodeId) :
    F.childAfter n c = match (F.childrenOf n).idxOf? c with
      | none => .error (.tree (.notAChild n c))
      | some i => .ok (F.childrenOf n)[i + 1]? := by
  rw [childAfter, indexOf_eq_ok hn, children_eq_ok hn]
  rfl

/-- The position before that of a child is one in the list. -/
theorem childBefore_eq (c : NodeId) :
    F.childBefore n c = match (F.childrenOf n).idxOf? c with
      | none => .error (.tree (.notAChild n c))
      | some 0 => .ok none
      | some (i + 1) => .ok (F.childrenOf n)[i]? := by
  rw [childBefore, indexOf_eq_ok hn, children_eq_ok hn]
  cases hindex : (F.childrenOf n).idxOf? c with
  | none => rfl
  | some i =>
    cases i with
    | zero => rfl
    | succ i =>
      obtain ⟨hlt, -⟩ := List.findIdx?_eq_some_iff_getElem.1 hindex
      have hbefore : (F.childrenOf n)[i]? = some (F.childrenOf n)[i] := List.getElem?_eq_getElem (by omega)
      show (match (F.childrenOf n)[i]? with
        | some b => pure (some b)
        | none => .error (.breach (.misplacedIndex n i))) = (.ok (F.childrenOf n)[i]? : Except Failure _)
      rw [hbefore]
      rfl

end

theorem isChild_eq_ok {m : NodeId} (hm : F.contains m = true) :
    F.isChild n (some m) = .ok (decide (F.parentOf m = some n)) := by
  simp only [isChild, resolve_of_contains hm, parent_eq_ok hm]
  rfl

/-! ## Siblings -/

namespace WellFormed

/-- A node stands in the list of its parent. -/
theorem idxOf?_of_parentOf (hF : F.WellFormed) {p : NodeId} (hp : F.parentOf n = some p) :
    (F.childrenOf p).idxOf? n = some ((F.childrenOf p).idxOf n) := by
  have hlisted := (hF.mem_childrenOf_iff p n).2 hp
  rw [List.idxOf_eq_getD_idxOf?]
  cases hindex : (F.childrenOf p).idxOf? n with
  | some i => rfl
  | none =>
    rw [List.idxOf?_eq_none_iff] at hindex
    exact absurd hlisted hindex

theorem position_eq_ok (hF : F.WellFormed) (hn : F.contains n = true) :
    F.position n = .ok ((F.parentOf n).map fun p => (p, (F.childrenOf p).idxOf n)) := by
  rw [position, parent_eq_ok hn]
  cases hp : F.parentOf n with
  | none => rfl
  | some p =>
    show (F.indexOf p n >>= _) = _
    rw [indexOf_eq_ok (hF.contains_parent hp), hF.idxOf?_of_parentOf hp]
    rfl

theorem siblingCount_eq_ok (hF : F.WellFormed) (hn : F.contains n = true) :
    F.siblingCount n = .ok (match F.parentOf n with
      | none => 1
      | some p => (F.childrenOf p).length) := by
  rw [siblingCount, parent_eq_ok hn]
  cases hp : F.parentOf n with
  | none => rfl
  | some p => exact childCount_eq_ok (hF.contains_parent hp)

/-- The next sibling stands right behind the node. -/
theorem nextSibling_eq_ok (hF : F.WellFormed) (hn : F.contains n = true) :
    F.nextSibling n = .ok ((F.parentOf n).bind fun p => (F.childrenOf p)[(F.childrenOf p).idxOf n + 1]?) := by
  rw [nextSibling, hF.position_eq_ok hn]
  cases hp : F.parentOf n with
  | none => rfl
  | some p =>
    show (F.children p >>= fun l => pure l[(F.childrenOf p).idxOf n + 1]?) = _
    rw [children_eq_ok (hF.contains_parent hp)]
    rfl

/-- The previous sibling stands right before the node. -/
theorem previousSibling_eq_ok (hF : F.WellFormed) (hn : F.contains n = true) :
    F.previousSibling n = .ok ((F.parentOf n).bind fun p => match (F.childrenOf p).idxOf n with
      | 0 => none
      | i + 1 => (F.childrenOf p)[i]?) := by
  rw [previousSibling, hF.position_eq_ok hn]
  cases hp : F.parentOf n with
  | none => rfl
  | some p =>
    cases hindex : (F.childrenOf p).idxOf n with
    | zero => simp [hindex, bind, Except.bind, pure, Except.pure]
    | succ i =>
      simp [hindex, children_eq_ok (hF.contains_parent hp), bind, Except.bind, pure, Except.pure]

/-- A node's position is the number of its siblings on the left. -/
theorem idxOf_of_split (hF : F.WellFormed) {p : NodeId} {left right : List NodeId}
    (hchildren : F.childrenOf p = left ++ n :: right) : (F.childrenOf p).idxOf n = left.length := by
  have hnodup := hF.nodup_childrenOf p
  rw [hchildren] at hnodup ⊢
  have hleft : n ∉ left := fun hmem => (List.nodup_append.1 hnodup).2.2 n hmem n (List.mem_cons_self ..) rfl
  rw [List.idxOf_append_of_notMem hleft, List.idxOf_cons_self, Nat.add_zero]

theorem parentOf_of_split (hF : F.WellFormed) {p : NodeId} {left right : List NodeId}
    (hchildren : F.childrenOf p = left ++ n :: right) : F.parentOf n = some p := by
  rw [← hF.mem_childrenOf_iff, hchildren]
  exact List.mem_append_right left (List.mem_cons_self ..)

theorem nextSibling_of_split (hF : F.WellFormed) {p : NodeId} {left right : List NodeId}
    (hchildren : F.childrenOf p = left ++ n :: right) : F.nextSibling n = .ok right.head? := by
  have hp := hF.parentOf_of_split hchildren
  rw [hF.nextSibling_eq_ok (contains_of_parentOf hp), hp, Option.bind_some, hF.idxOf_of_split hchildren, hchildren,
    List.getElem?_append_right (Nat.le_add_right _ 1), Nat.add_sub_cancel_left, List.getElem?_cons_succ,
    List.head?_eq_getElem?]

theorem previousSibling_of_split (hF : F.WellFormed) {p : NodeId} {left right : List NodeId}
    (hchildren : F.childrenOf p = left ++ n :: right) : F.previousSibling n = .ok left.getLast? := by
  have hp := hF.parentOf_of_split hchildren
  rw [hF.previousSibling_eq_ok (contains_of_parentOf hp), hp, Option.bind_some, hF.idxOf_of_split hchildren]
  rcases List.eq_nil_or_concat left with rfl | ⟨init, s, rfl⟩
  · rfl
  · rw [hchildren, List.length_concat]
    simp

/-- Nodes are siblings if they are one node, or have one parent. -/
theorem isSibling_eq_ok (hF : F.WellFormed) (hn : F.contains n = true) {m : NodeId} (hm : F.contains m = true) :
    F.isSibling n (some m) = .ok (decide (m = n ∨ F.parentOf n ≠ none ∧ F.parentOf m = F.parentOf n)) := by
  simp only [isSibling, resolve_of_contains hm]
  by_cases hmn : m = n
  · simp [hmn]
  rw [if_neg hmn, parent_eq_ok hn, parent_eq_ok hm]
  cases hp : F.parentOf n with
  | none => simp [hmn, bind, Except.bind, pure, Except.pure]
  | some p =>
    by_cases hmp : F.parentOf m = some p
    · simp [hmp, indexOf_eq_ok (hF.contains_parent hp), hF.idxOf?_of_parentOf hmp, bind, Except.bind, pure,
        Except.pure]
    · simp [hmn, hmp, bind, Except.bind, pure, Except.pure]

end WellFormed

end Grove.Forest
