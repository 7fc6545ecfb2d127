import Grove.Proofs.Forest.Edits
import Grove.Proofs.Forest.Meet
import Grove.Proofs.Walker.Traversal
import Mathlib.Data.List.TFAE
import Mathlib.Order.Defs.Unbundled

/-!
# `Proofs.Forest.Ancestry` — one relation, asked in many ways

Whether `x` is an ancestor of `y` can be asked of the forest by climbing from `y`, by listing the path down to `y`
or the tree below `x`, by taking the nearest ancestor that the two share, by making a walker from `x` to `y`, and
by trying to place `x` under `y`. Each of these goes its own way through the links. All of them come to the same
answer (`ancestry_agrees`), which is whether `x` is in the chain of `y`.
-/

namespace Grove.Forest

variable {α : Type} {F : Forest α}

theorem resolve_of_not_contains {n : NodeId} (hn : F.contains n = false) : F.resolve (some n) = none := by
  rw [resolve, Option.filter_some, if_neg (by simp [hn])]

/-- What is answered under a condition and refused otherwise is answered exactly under the condition. -/
theorem exists_eq_ok_iff {β : Type} {p : Prop} [Decidable p] {b : β} {failure : Failure} :
    (∃ c, (if p then .ok b else .error failure : Except Failure β) = .ok c) ↔ p := by
  by_cases hp : p
  · simp [hp]
  · simp [hp]

namespace WellFormed

theorem isAncestorOf_eq (hF : F.WellFormed) (x : NodeId) {y : NodeId} (hy : F.contains y = true) :
    F.isAncestorOf x (some y) = .ok (decide (x ∈ F.chain y)) := by
  simp only [isAncestorOf, resolve_of_contains hy]
  exact hF.reaches_eq hy x

theorem isDescendantOf_eq (hF : F.WellFormed) {x y : NodeId} (hx : F.contains x = true)
    (hy : F.contains y = true) : F.isDescendantOf y (some x) = .ok (decide (x ∈ F.chain y)) := by
  simp only [isDescendantOf, resolve_of_contains hx]
  exact hF.isAncestorOf_eq x hy

theorem isAncestorOf_eq_true_iff (hF : F.WellFormed) {x y : NodeId} (hy : F.contains y = true) :
    F.isAncestorOf x (some y) = .ok true ↔ F.Ancestor x y := by
  rw [hF.isAncestorOf_eq x hy, Except.ok.injEq, decide_eq_true_iff, hF.mem_chain_iff hy]

/-- The walk down to a node that lies below begins where it was asked to. -/
theorem pathFrom_eq (hF : F.WellFormed) {x y : NodeId} (hx : F.contains x = true) (hy : F.contains y = true) :
    F.pathFrom y x = if x ∈ F.chain y then .ok (Walker.pathOf F x y)
      else .error (.tree (.notAnAncestor x y)) := by
  have hpath := Walker.path_eq hF x y
  rw [if_neg (by simp [hx]), if_neg (by simp [hy])] at hpath
  by_cases hup : x ∈ F.chain y
  · rw [if_pos hup] at hpath ⊢
    have hnew : Walker.New F ⟨F.generation, .path (Walker.pathOf F x y)⟩ (Walker.pathOf F x y) := .path hpath
    rw [pathFrom, hpath]
    exact (traversal_of_new hF hpath hnew).1
  · rw [if_neg hup] at hpath ⊢
    rw [pathFrom, hpath]
    rfl

/-- Placing a node first among the children of another is refused as a cycle if it is above that one, and for no
    other reason. -/
theorem insert_zero_eq_cycle_iff (hF : F.WellFormed) {x y : NodeId} (hx : F.contains x = true)
    (hy : F.contains y = true) :
    insert y 0 x F = .error (.tree (.cycleDetected y x)) F ↔ x ∈ F.chain y := by
  rw [hF.insert_eq, if_neg (by simp [hy]), if_neg (by simp [hx])]
  by_cases hup : x ∈ F.chain y
  · simp [hup]
  · simp [hup]

/-- Ancestry orders the nodes that are there. -/
theorem isPartialOrder_isAncestorOf (hF : F.WellFormed) :
    IsPartialOrder {n // F.contains n = true} fun a b => F.isAncestorOf a.1 (some b.1) = .ok true where
  refl a := (hF.isAncestorOf_eq_true_iff a.2).2 (ancestor_refl a.1)
  trans a b c hab hbc := by
    rw [hF.isAncestorOf_eq_true_iff b.2] at hab
    rw [hF.isAncestorOf_eq_true_iff c.2] at hbc
    exact (hF.isAncestorOf_eq_true_iff c.2).2 (hab.trans hbc)
  antisymm a b hab hba := by
    rw [hF.isAncestorOf_eq_true_iff b.2] at hab
    rw [hF.isAncestorOf_eq_true_iff a.2] at hba
    exact Subtype.ext (hF.ancestor_antisymm hab hba)

end WellFormed

/-- **All notions of ancestry agree.** For two nodes that are there every question is answered, and the answers
    say one thing: that `x` is met when climbing from `y`. This orders the nodes that are there, and a name that is
    absent or stale has no ancestors and no descendants. -/
theorem ancestry_agrees (hF : F.Reachable) :
    (∀ x y, F.contains x = true → F.contains y = true →
      ∃ above below path pre post wide meet,
        F.isAncestorOf x (some y) = .ok above ∧ F.isDescendantOf y (some x) = .ok below ∧
        F.path y = .ok path ∧ F.preorder x = .ok pre ∧ F.postorder x = .ok post ∧
        F.breadthFirst x = .ok wide ∧ F.sharedAncestor x (some y) = .ok meet ∧
        [F.Ancestor x y, above = true, below = true, x ∈ path, y ∈ pre, y ∈ post, y ∈ wide,
          ∃ w, Walker.path F x y = .ok w, ∃ l, F.pathFrom y x = .ok l, meet = some x,
          insert y 0 x F = .error (.tree (.cycleDetected y x)) F].TFAE ∧
        (¬ F.Ancestor x y → Walker.path F x y = .error (.tree (.notAnAncestor x y))
          ∧ F.pathFrom y x = .error (.tree (.notAnAncestor x y)))) ∧
    IsPartialOrder {n // F.contains n = true} (fun a b => F.isAncestorOf a.1 (some b.1) = .ok true) ∧
    ∀ n, (F.isAncestorOf n none = .ok false ∧ F.isDescendantOf n none = .ok false) ∧
      ∀ other, F.contains other = false →
        F.isAncestorOf n (some other) = .ok false ∧ F.isDescendantOf n (some other) = .ok false := by
  have hwf := hF.wellFormed
  refine ⟨?_, hwf.isPartialOrder_isAncestorOf, ?_⟩
  · intro x y hx hy
    obtain ⟨meet, hmeet, hspec⟩ := hwf.sharedAncestor_eq hx hy
    have hchain := hwf.mem_chain_iff (x := x) hy
    have hpath := Walker.path_eq hwf x y
    rw [if_neg (by simp [hx]), if_neg (by simp [hy])] at hpath
    have hpre := hwf.mem_preorder_shape_iff (x := y) hx
    have hwide : (Tree.queued [F.shape x]).Perm (F.shape x).preorder := by
      simpa using Tree.queued_perm [F.shape x]
    refine ⟨_, _, _, _, _, _, meet, hwf.isAncestorOf_eq x hy, hwf.isDescendantOf_eq hx hy, hwf.path_eq hy,
      (preorder_eq hwf hx).1, (postorder_eq hwf hx).1, (breadthFirst_eq hwf hx).1, hmeet, ?_, ?_⟩
    · apply List.tfae_of_forall (F.Ancestor x y)
      simp only [List.forall_mem_cons, List.not_mem_nil, false_imp_iff, implies_true, and_true]
      refine ⟨trivial, ?_, ?_, ?_, hpre, ?_, ?_, ?_, ?_, hwf.meet_eq_left_iff hspec, ?_⟩
      · rw [decide_eq_true_iff, hchain]
      · rw [decide_eq_true_iff, hchain]
      · rw [List.mem_reverse, hchain]
      · rw [Tree.mem_postorder_iff, hpre]
      · rw [hwide.mem_iff, hpre]
      · rw [hpath, exists_eq_ok_iff, hchain]
      · rw [hwf.pathFrom_eq hx hy, exists_eq_ok_iff, hchain]
      · rw [hwf.insert_zero_eq_cycle_iff hx hy, hchain]
    · intro hup
      rw [← hchain] at hup
      rw [hpath, hwf.pathFrom_eq hx hy, if_neg hup, if_neg hup]
      exact ⟨rfl, rfl⟩
  · intro n
    refine ⟨⟨rfl, rfl⟩, fun other hother => ?_⟩
    simp only [isAncestorOf, isDescendantOf, resolve_of_not_contains hother, and_self]

theorem ancestry_agrees_of_chain :
    let F := (empty : Forest Nat).afterAll
      [.create 7, .create 8, .create 9, .add ⟨0, 0⟩ ⟨1, 0⟩, .add ⟨1, 0⟩ ⟨2, 0⟩]
    F.Reachable ∧ F.isAncestorOf ⟨0, 0⟩ (some ⟨2, 0⟩) = .ok true
      ∧ F.sharedAncestor ⟨0, 0⟩ (some ⟨2, 0⟩) = .ok (some ⟨0, 0⟩)
      ∧ F.pathFrom ⟨0, 0⟩ ⟨2, 0⟩ = .error (.tree (.notAnAncestor ⟨2, 0⟩ ⟨0, 0⟩))
      ∧ F.isAncestorOf ⟨0, 0⟩ (some ⟨2, 1⟩) = .ok false := by
  intro F
  have hF : F.Reachable := ⟨_, rfl⟩
  have hdown : F.Ancestor ⟨0, 0⟩ ⟨2, 0⟩ :=
    (ancestor_of_parentOf (p := ⟨0, 0⟩) (c := ⟨1, 0⟩) (by decide)).trans (ancestor_of_parentOf (by decide))
  have hup : ¬ F.Ancestor ⟨2, 0⟩ ⟨0, 0⟩ := fun h =>
    absurd (hF.wellFormed.ancestor_antisymm hdown h) (by decide)
  obtain ⟨hpairs, -, habsent⟩ := ancestry_agrees hF
  obtain ⟨above, _, _, _, _, _, meet, habove, _, _, _, _, _, hmeet, htfae, _⟩ :=
    hpairs ⟨0, 0⟩ ⟨2, 0⟩ (by decide) (by decide)
  obtain ⟨_, _, _, _, _, _, _, _, _, _, _, _, _, _, _, hrefused⟩ :=
    hpairs ⟨2, 0⟩ ⟨0, 0⟩ (by decide) (by decide)
  obtain rfl : above = true := (htfae.out 0 1).1 hdown
  obtain rfl : meet = some ⟨0, 0⟩ := (htfae.out 0 9).1 hdown
  exact ⟨hF, habove, hmeet, (hrefused hup).2, ((habsent ⟨0, 0⟩).2 ⟨2, 1⟩ (by decide)).1⟩

end Grove.Forest
