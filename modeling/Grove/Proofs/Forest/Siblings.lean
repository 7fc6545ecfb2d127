import Grove.Proofs.Forest.Ancestry
import Grove.Proofs.Forest.Iteration
import Grove.Proofs.Forest.Moves

/-!
# `Proofs.Forest.Siblings` — stepping through a list of children

A child is found by its position, by its name, or by its own link to the parent, and its neighbours are found by asking
the parent for them or the child. On a well-formed forest all of these read one list without repetitions, the children
of the parent: a position and a name determine each other (`WellFormed.indexOf_eq_some_iff`), and the neighbours of the
child at position `k` are at positions `k + 1` and `k - 1` whoever is asked. Stepping from sibling to sibling thus goes
through the list in both directions (`WellFormed.follows_nextSibling`, `WellFormed.follows_previousSibling`).

A root has no list to stand in. It has no neighbours and is its only sibling, so that being siblings is an equivalence
on all nodes, with the classes `siblingsOf` (`navigation_agrees`).
-/

namespace Grove.Forest

variable {α : Type} {F : Forest α} {p n m c : NodeId} {k : Nat}

/-! ## Positions and names -/

theorem child_eq_ok_iff : F.child p k = .ok n ↔ (F.childrenOf p)[k]? = some n := by
  constructor
  · exact getElem?_of_child
  · intro hk
    rw [child_eq (contains_of_getElem? hk), hk]

/-- A name that does not resolve is nobody's child. -/
theorem isChild_eq (p c : NodeId) : F.isChild p (some c) = .ok (decide (F.parentOf c = some p)) := by
  cases hc : F.contains c with
  | true => exact isChild_eq_ok hc
  | false => simp [isChild, resolve_of_not_contains hc, parentOf_of_not_contains hc]

section

variable (hp : F.contains p = true)

include hp

theorem toOption_child (k : Nat) : (F.child p k).toOption = (F.childrenOf p)[k]? := by
  rw [child_eq hp]
  cases (F.childrenOf p)[k]? <;> rfl

theorem child_of_length_le (hk : (F.childrenOf p).length ≤ k) :
    F.child p k = .error (.tree (.outOfRange k (F.childrenOf p).length)) := by
  rw [child_eq hp, List.getElem?_eq_none hk]

theorem firstChild_eq_ok_iff : F.firstChild p = .ok n ↔ (F.childrenOf p).head? = some n := by
  rw [firstChild_eq hp]
  cases (F.childrenOf p).head? <;> simp

theorem lastChild_eq_ok_iff : F.lastChild p = .ok n ↔ (F.childrenOf p).getLast? = some n := by
  rw [lastChild_eq hp]
  cases (F.childrenOf p).getLast? <;> simp

end

/-- In a list that has nothing twice, a name stands at one position. -/
theorem idxOf?_eq_some_iff_of_nodup {l : List NodeId} (hl : l.Nodup) : l.idxOf? n = some k ↔ l[k]? = some n := by
  rw [List.idxOf?_eq_some_iff, List.getElem?_eq_some_iff]
  refine exists_congr fun hk => and_iff_left_of_imp ?_
  rintro rfl j hj heq
  exact Nat.ne_of_lt hj ((hl.getElem_inj_iff).1 heq)

namespace WellFormed

theorem indexOf_eq_some_iff (hF : F.WellFormed) (hp : F.contains p = true) :
    F.indexOf p n = .ok (some k) ↔ F.child p k = .ok n := by
  rw [indexOf_eq_ok hp, Except.ok.injEq, child_eq_ok_iff, idxOf?_eq_some_iff_of_nodup (hF.nodup_childrenOf p)]

/-- A child at a position has its parent's name. -/
theorem isChild_of_getElem? (hF : F.WellFormed) (hk : (F.childrenOf p)[k]? = some n) :
    F.isChild p (some n) = .ok true := by
  rw [isChild_eq, decide_eq_true (hF.parentOf_of_getElem? hk)]

/-- The parent knows no neighbours of a node that is not its child, and of no other. -/
theorem isChild_eq_false_iff (hF : F.WellFormed) :
    F.isChild p (some c) = .ok false ↔ (F.childrenOf p).idxOf? c = none := by
  rw [isChild_eq, Except.ok.injEq, decide_eq_false_iff_not, ← hF.mem_childrenOf_iff, List.idxOf?_eq_none_iff]

theorem childAfter_eq_error_iff (hF : F.WellFormed) (hp : F.contains p = true) {failure : Failure} :
    F.childAfter p c = .error failure
      ↔ F.isChild p (some c) = .ok false ∧ failure = .tree (.notAChild p c) := by
  rw [childAfter_eq hp, hF.isChild_eq_false_iff]
  cases (F.childrenOf p).idxOf? c with
  | none => simp [eq_comm]
  | some i => simp

theorem childBefore_eq_error_iff (hF : F.WellFormed) (hp : F.contains p = true) {failure : Failure} :
    F.childBefore p c = .error failure
      ↔ F.isChild p (some c) = .ok false ∧ failure = .tree (.notAChild p c) := by
  rw [childBefore_eq hp, hF.isChild_eq_false_iff]
  cases (F.childrenOf p).idxOf? c with
  | none => simp [eq_comm]
  | some i => cases i <;> simp

/-! ## The neighbours of a child -/

section

variable (hF : F.WellFormed) (hk : (F.childrenOf p)[k]? = some n)

include hF hk

theorem idxOf?_of_getElem? : (F.childrenOf p).idxOf? n = some k :=
  (idxOf?_eq_some_iff_of_nodup (hF.nodup_childrenOf p)).2 hk

theorem childAfter_of_getElem? : F.childAfter p n = .ok (F.childrenOf p)[k + 1]? := by
  rw [childAfter_eq (contains_of_getElem? hk), hF.idxOf?_of_getElem? hk]

theorem childBefore_of_getElem? :
    F.childBefore p n = .ok (if k = 0 then none else (F.childrenOf p)[k - 1]?) := by
  rw [childBefore_eq (contains_of_getElem? hk), hF.idxOf?_of_getElem? hk]
  cases k <;> rfl

/-- The child finds its parent, and itself in the parent's list. -/
theorem position_of_getElem? : F.position n = .ok (some (p, k)) := by
  have hparent := hF.parentOf_of_getElem? hk
  have hindex := (hF.idxOf?_of_parentOf hparent).symm.trans (hF.idxOf?_of_getElem? hk)
  rw [hF.position_eq_ok (contains_of_parentOf hparent), hparent, Option.map_some, Option.some.inj hindex]

theorem nextSibling_eq_childAfter : F.nextSibling n = F.childAfter p n := by
  have hp := contains_of_getElem? hk
  rw [hF.childAfter_of_getElem? hk, nextSibling, hF.position_of_getElem? hk]
  simp [children_eq_ok hp, bind, Except.bind, pure, Except.pure]

theorem previousSibling_eq_childBefore : F.previousSibling n = F.childBefore p n := by
  have hp := contains_of_getElem? hk
  rw [hF.childBefore_of_getElem? hk, previousSibling, hF.position_of_getElem? hk]
  cases k with
  | zero => rfl
  | succ k => simp [children_eq_ok hp, bind, Except.bind, pure, Except.pure]

/-- Nothing comes after the last child alone. -/
theorem childAfter_eq_none_iff : F.childAfter p n = .ok none ↔ F.lastChild p = .ok n := by
  obtain ⟨hlt, -⟩ := List.getElem?_eq_some_iff.1 hk
  rw [hF.childAfter_of_getElem? hk, lastChild_eq_ok_iff (contains_of_getElem? hk),
    Except.ok.injEq, List.getElem?_eq_none_iff, List.getLast?_eq_getElem?, ← hk,
    List.getElem?_inj (by omega) (hF.nodup_childrenOf p)]
  omega

/-- Nothing comes before the first child alone. -/
theorem childBefore_eq_none_iff : F.childBefore p n = .ok none ↔ F.firstChild p = .ok n := by
  obtain ⟨hlt, -⟩ := List.getElem?_eq_some_iff.1 hk
  rw [hF.childBefore_of_getElem? hk, firstChild_eq_ok_iff (contains_of_getElem? hk),
    Except.ok.injEq, List.head?_eq_getElem?, ← hk, List.getElem?_inj (by omega) (hF.nodup_childrenOf p)]
  split
  · rename_i hzero
    simp [hzero]
  · rw [List.getElem?_eq_none_iff]
    omega

end

/-! ## From sibling to sibling -/

theorem follows_nextSibling (hF : F.WellFormed) (p : NodeId) : Follows F.nextSibling (F.childrenOf p) :=
  fun _ _ _ hsplit => hF.nextSibling_of_split hsplit

theorem follows_previousSibling (hF : F.WellFormed) (p : NodeId) :
    Follows F.previousSibling (F.childrenOf p).reverse :=
  follows_reverse_iff.2 fun _ _ _ hsplit => hF.previousSibling_of_split hsplit

/-- Only a child has a sibling beside it. -/
theorem exists_parent_of_beside (hF : F.WellFormed) (hn : F.contains n = true)
    (h : F.nextSibling n = .ok (some m) ∨ F.previousSibling n = .ok (some m)) : ∃ p, n ∈ F.childrenOf p := by
  rw [hF.nextSibling_eq_ok hn, hF.previousSibling_eq_ok hn, Except.ok.injEq, Except.ok.injEq] at h
  cases hparent : F.parentOf n with
  | none => simp [hparent] at h
  | some p => exact ⟨p, (hF.mem_childrenOf_iff p n).2 hparent⟩

/-- The two kinds of step undo each other. -/
theorem nextSibling_eq_some_iff (hF : F.WellFormed) (hn : F.contains n = true) (hm : F.contains m = true) :
    F.nextSibling n = .ok (some m) ↔ F.previousSibling m = .ok (some n) := by
  constructor
  · intro h
    obtain ⟨p, hlisted⟩ := hF.exists_parent_of_beside hn (.inl h)
    exact (hF.follows_nextSibling p).back (hF.follows_previousSibling p) hlisted h
  · intro h
    obtain ⟨p, hlisted⟩ := hF.exists_parent_of_beside hm (.inr h)
    exact (hF.follows_nextSibling p).forth (hF.follows_previousSibling p) hlisted h

/-- Both ways through the children of a node. -/
theorem visits_children (hF : F.WellFormed) (hp : F.contains p = true) (hne : F.childrenOf p ≠ []) :
    ∃ first last, F.firstChild p = .ok first ∧ F.lastChild p = .ok last ∧
      (F.childrenOf p).getLast? = some last ∧
      Visits F.nextSibling first (F.childrenOf p) ∧ Visits F.previousSibling last (F.childrenOf p).reverse := by
  have hfirst := List.head?_eq_some_head hne
  have hlast := List.getLast?_eq_some_getLast hne
  refine ⟨_, _, (firstChild_eq_ok_iff hp).2 hfirst, (lastChild_eq_ok_iff hp).2 hlast, hlast,
    (hF.follows_nextSibling p).visits hfirst, (hF.follows_previousSibling p).visits ?_⟩
  rw [List.head?_reverse, hlast]

end WellFormed

/-! ## Siblings -/

/-- The nodes that have the parent of `n`, and `n` alone if it is a root. -/
def siblingsOf (F : Forest α) (n : NodeId) : List NodeId :=
  match F.parentOf n with
  | none => [n]
  | some p => F.childrenOf p

namespace WellFormed

theorem isSibling_eq_true_iff (hF : F.WellFormed) (hn : F.contains n = true) (hm : F.contains m = true) :
    F.isSibling n (some m) = .ok true ↔ m = n ∨ F.parentOf n ≠ none ∧ F.parentOf m = F.parentOf n := by
  rw [hF.isSibling_eq_ok hn hm, Except.ok.injEq, decide_eq_true_iff]

theorem nodup_siblingsOf (hF : F.WellFormed) (n : NodeId) : (F.siblingsOf n).Nodup := by
  unfold siblingsOf
  cases F.parentOf n with
  | none => exact List.nodup_singleton n
  | some p => exact hF.nodup_childrenOf p

theorem siblingCount_eq (hF : F.WellFormed) (hn : F.contains n = true) :
    F.siblingCount n = .ok (F.siblingsOf n).length := by
  rw [hF.siblingCount_eq_ok hn, siblingsOf]
  cases F.parentOf n <;> rfl

theorem mem_siblingsOf_iff (hF : F.WellFormed) (hn : F.contains n = true) :
    m ∈ F.siblingsOf n ↔ F.contains m = true ∧ F.isSibling n (some m) = .ok true := by
  have hclass : m ∈ F.siblingsOf n ↔ m = n ∨ F.parentOf n ≠ none ∧ F.parentOf m = F.parentOf n := by
    unfold siblingsOf
    cases hparent : F.parentOf n with
    | none => simp
    | some p =>
      rw [hF.mem_childrenOf_iff]
      refine ⟨fun h => .inr ⟨nofun, h⟩, ?_⟩
      rintro (rfl | ⟨-, h⟩)
      · exact hparent
      · exact h
  have hlive : (m = n ∨ F.parentOf n ≠ none ∧ F.parentOf m = F.parentOf n) → F.contains m = true := by
    rintro (rfl | ⟨hne, hsame⟩)
    · exact hn
    · obtain ⟨p, hp⟩ := Option.ne_none_iff_exists'.1 hne
      exact contains_of_parentOf (hsame.trans hp)
  rw [hclass]
  constructor
  · intro h
    exact ⟨hlive h, (hF.isSibling_eq_true_iff hn (hlive h)).2 h⟩
  · rintro ⟨hm, h⟩
    exact (hF.isSibling_eq_true_iff hn hm).1 h

theorem equivalence_isSibling (hF : F.WellFormed) :
    Equivalence fun a b : {n // F.contains n = true} => F.isSibling a.1 (some b.1) = .ok true where
  refl a := (hF.isSibling_eq_true_iff a.2 a.2).2 (.inl rfl)
  symm {a b} hab := by
    rw [hF.isSibling_eq_true_iff a.2 b.2] at hab
    rw [hF.isSibling_eq_true_iff b.2 a.2]
    rcases hab with heq | ⟨hchild, hsame⟩
    · exact .inl heq.symm
    · exact .inr ⟨hsame ▸ hchild, hsame.symm⟩
  trans {a b c} hab hbc := by
    rw [hF.isSibling_eq_true_iff a.2 b.2] at hab
    rw [hF.isSibling_eq_true_iff b.2 c.2] at hbc
    rw [hF.isSibling_eq_true_iff a.2 c.2]
    rcases hab with heq | ⟨hchild, hsame⟩
    · rwa [heq] at hbc
    · rcases hbc with heq | ⟨-, hsame'⟩
      · exact .inr ⟨hchild, heq ▸ hsame⟩
      · exact .inr ⟨hchild, hsame'.trans hsame⟩

end WellFormed

/-- **Children and siblings.** The children of a node are a list without repetitions. A child's position by its name
    and the child at a position are inverse to each other, and what is found either way is a child by its own account.
    From a child one gets to the next one, at the next position, by asking the parent or the child, and to the previous
    one in the same way; there is none exactly behind the last child and before the first. Asked for again and again
    from one end of the list, siblings are the whole list in order, and backwards from the other end. The parent
    refuses to name neighbours exactly of nodes that are not its children. One node is the next sibling of another
    exactly if that one is its previous sibling. Being siblings is answered for any two nodes and is an equivalence;
    the number of siblings is the size of the class. -/
theorem navigation_agrees (hF : F.Reachable) :
    (∀ p, F.contains p = true → ∃ l, F.children p = .ok l ∧ l.Nodup ∧
      (∀ n k, (F.indexOf p n = .ok (some k) ↔ F.child p k = .ok n) ∧
        (F.child p k = .ok n ↔ F.isChild p (some n) = .ok true ∧ l[k]? = some n)) ∧
      (∀ k, l.length ≤ k → F.child p k = .error (.tree (.outOfRange k l.length))) ∧
      (∀ n k, F.child p k = .ok n →
        F.nextSibling n = F.childAfter p n ∧ F.childAfter p n = .ok (F.child p (k + 1)).toOption ∧
        F.previousSibling n = F.childBefore p n ∧
        F.childBefore p n = .ok (if k = 0 then none else (F.child p (k - 1)).toOption) ∧
        (F.nextSibling n = .ok none ↔ F.lastChild p = .ok n) ∧
        (F.previousSibling n = .ok none ↔ F.firstChild p = .ok n)) ∧
      (l ≠ [] → ∃ first last, F.firstChild p = .ok first ∧ F.lastChild p = .ok last ∧ l.getLast? = some last ∧
        Visits F.nextSibling first l ∧ Visits F.previousSibling last l.reverse) ∧
      ∀ c failure,
        (F.childAfter p c = .error failure
          ↔ F.isChild p (some c) = .ok false ∧ failure = .tree (.notAChild p c)) ∧
        (F.childBefore p c = .error failure
          ↔ F.isChild p (some c) = .ok false ∧ failure = .tree (.notAChild p c))) ∧
    (∀ n m, F.contains n = true → F.contains m = true →
      (F.nextSibling n = .ok (some m) ↔ F.previousSibling m = .ok (some n)) ∧
      ∃ answer, F.isSibling n (some m) = .ok answer) ∧
    Equivalence (fun a b : {n // F.contains n = true} => F.isSibling a.1 (some b.1) = .ok true) ∧
    ∀ n, F.contains n = true → ∃ kin : List NodeId, kin.Nodup ∧
      (∀ m, m ∈ kin ↔ F.contains m = true ∧ F.isSibling n (some m) = .ok true) ∧
      F.siblingCount n = .ok kin.length := by
  have hF := hF.wellFormed
  refine ⟨?_, ?_, hF.equivalence_isSibling, ?_⟩
  · intro p hp
    refine ⟨_, children_eq_ok hp, hF.nodup_childrenOf p, ?_, fun k => child_of_length_le hp, ?_,
      hF.visits_children hp, fun c failure => ⟨hF.childAfter_eq_error_iff hp, hF.childBefore_eq_error_iff hp⟩⟩
    · intro n k
      refine ⟨hF.indexOf_eq_some_iff hp, ?_⟩
      rw [child_eq_ok_iff]
      exact ⟨fun hk => ⟨hF.isChild_of_getElem? hk, hk⟩, And.right⟩
    · intro n k hchild
      have hk := child_eq_ok_iff.1 hchild
      rw [hF.nextSibling_eq_childAfter hk, hF.previousSibling_eq_childBefore hk, toOption_child hp, toOption_child hp]
      exact ⟨rfl, hF.childAfter_of_getElem? hk, rfl, hF.childBefore_of_getElem? hk, hF.childAfter_eq_none_iff hk,
        hF.childBefore_eq_none_iff hk⟩
  · intro n m hn hm
    exact ⟨hF.nextSibling_eq_some_iff hn hm, _, hF.isSibling_eq_ok hn hm⟩
  · intro n hn
    exact ⟨_, hF.nodup_siblingsOf n, fun m => hF.mem_siblingsOf_iff hn, hF.siblingCount_eq hn⟩

/-- On a node with two children, which follow each other; the root is no child of itself, and its only sibling. -/
theorem navigation_agrees_of_fork :
    let F := (empty : Forest Nat).afterAll [.create 7, .create 8, .create 9, .add ⟨0, 0⟩ ⟨1, 0⟩, .add ⟨0, 0⟩ ⟨2, 0⟩]
    F.Reachable ∧ F.indexOf ⟨0, 0⟩ ⟨2, 0⟩ = .ok (some 1) ∧ F.nextSibling ⟨1, 0⟩ = .ok (some ⟨2, 0⟩) ∧
      F.previousSibling ⟨2, 0⟩ = .ok (some ⟨1, 0⟩) ∧ Visits F.nextSibling ⟨1, 0⟩ [⟨1, 0⟩, ⟨2, 0⟩] ∧
      F.childAfter ⟨0, 0⟩ ⟨0, 0⟩ = .error (.tree (.notAChild ⟨0, 0⟩ ⟨0, 0⟩)) ∧
      ∃ kin : List NodeId, (∀ m ∈ kin, F.isSibling ⟨0, 0⟩ (some m) = .ok true) ∧ kin.length = 1 := by
  intro F
  have hF : F.Reachable := ⟨_, rfl⟩
  obtain ⟨hlists, hpairs, -, hclasses⟩ := navigation_agrees hF
  obtain ⟨l, hl, -, hplaces, -, hbeside, hways, hrefused⟩ := hlists ⟨0, 0⟩ (by decide)
  obtain rfl : l = [⟨1, 0⟩, ⟨2, 0⟩] := Except.ok.inj (hl.symm.trans rfl)
  obtain ⟨first, last, hfirst, -, -, hvisits, -⟩ := hways (by decide)
  obtain rfl : first = ⟨1, 0⟩ := Except.ok.inj (hfirst.symm.trans rfl)
  have hnext : F.nextSibling ⟨1, 0⟩ = .ok (some ⟨2, 0⟩) := by
    obtain ⟨hask, hafter, -⟩ := hbeside ⟨1, 0⟩ 0 rfl
    exact hask.trans hafter
  obtain ⟨kin, -, hkin, hcount⟩ := hclasses ⟨0, 0⟩ (by decide)
  refine ⟨hF, (hplaces ⟨2, 0⟩ 1).1.2 rfl, hnext, ((hpairs _ _ (by decide) (by decide)).1).1 hnext, hvisits,
    (hrefused ⟨0, 0⟩ _).1.2 ⟨rfl, rfl⟩, kin, fun m hm => ((hkin m).1 hm).2, ?_⟩
  exact (Except.ok.inj (hcount.symm.trans rfl))

end Grove.Forest
