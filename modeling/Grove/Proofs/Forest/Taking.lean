import Grove.Proofs.Forest.Moves
import Grove.Proofs.Forest.Refusal

/-!
# `Proofs.Forest.Taking` — four ways to take a node away

A child is taken from its parent by its position, by its name, through its own parent link, or with all of its siblings.
The first three look in different places, but find the same: a node stands in the list of its parent, and there once. So
each of them cuts the node and does nothing else (`WellFormed.removeAt_of_getElem?` and its neighbours), and they agree
wherever they apply (`taking_outcome`).

Taking all children cuts them from the right. As cuts commute (`cut_comm`), so that the nodes cut one after the other may
be put in any order (`cutAll_of_perm`), it leaves what is left when they are taken one at a time in whatever order.
-/

namespace Grove.Forest

variable {α : Type} {F G : Forest α} {p c : NodeId}

open Edit

/-! ## Cutting several nodes -/

/-- Which of two nodes is cut first makes no difference. -/
theorem cut_comm (a b : NodeId) (F : Forest α) : (F.cut a).cut b = (F.cut b).cut a := by
  simp only [Forest.cut, rewire_rewire]
  apply rewire_congr
  intro n node _
  rw [List.erase_comm]
  congr 1
  by_cases ha : n = a <;> by_cases hb : n = b <;> simp [ha, hb]

/-- The order in which nodes are cut makes no difference. -/
theorem cutAll_of_perm {l l' : List NodeId} (h : l.Perm l') (F : Forest α) : F.cutAll l = F.cutAll l' := by
  apply h.foldr_eq'
  intro a _ b _ G
  show ((G.cut a).cut b).bumped.bumped = ((G.cut b).cut a).bumped.bumped
  rw [cut_comm]

theorem parentOf_cutAll (l : List NodeId) (F : Forest α) (n : NodeId) :
    (F.cutAll l).parentOf n = if n ∈ l then none else F.parentOf n := by
  induction l with
  | nil => simp [cutAll]
  | cons c l ih =>
    show ((F.cutAll l).cut c).bumped.parentOf n = _
    rw [parentOf_bumped, parentOf_cut, ih]
    by_cases hn : n = c <;> simp [hn]

theorem relinked_cutAll (l : List NodeId) (F : Forest α) : Relinked F (F.cutAll l) := by
  induction l with
  | nil => exact .refl F
  | cons c l ih => exact (ih.trans (.cut c _)).bumped

namespace WellFormed

/-- Cutting children of `p` changes no other list. -/
theorem childrenOf_cutAll_of_ne (hF : F.WellFormed) {l : List NodeId} (hl : ∀ c ∈ l, F.parentOf c = some p)
    {n : NodeId} (hn : n ≠ p) : (F.cutAll l).childrenOf n = F.childrenOf n := by
  induction l with
  | nil => rfl
  | cons c l ih =>
    have hlink := hl c (List.mem_cons_self ..)
    show ((F.cutAll l).cut c).bumped.childrenOf n = _
    rw [childrenOf_bumped, childrenOf_cut, ih fun d hd => hl d (List.mem_cons_of_mem _ hd), hF.erase_of_parentOf_ne]
    rw [hlink, ne_eq, Option.some.injEq]
    exact Ne.symm hn

/-- With all its children cut a node has none. -/
theorem childrenOf_cutAll_self (hF : F.WellFormed) (p : NodeId) : (F.cutAll (F.childrenOf p)).childrenOf p = [] := by
  rw [List.eq_nil_iff_forall_not_mem]
  intro c hlisted
  rw [(hF.cutAll _).mem_childrenOf_iff, parentOf_cutAll] at hlisted
  split at hlisted
  · cases hlisted
  · rename_i hnot
    exact hnot ((hF.mem_childrenOf_iff p c).2 hlisted)

/-- What hangs from a child of `p` goes with it. -/
theorem subtree_cutAll (hF : F.WellFormed) (hlisted : c ∈ F.childrenOf p) :
    (F.cutAll (F.childrenOf p)).shape c = F.shape c ∧ (F.cutAll (F.childrenOf p)).subtree c = F.subtree c := by
  have hlink := (hF.mem_childrenOf_iff p c).1 hlisted
  apply hF.subtree_congr (hF.cutAll _) (relinked_cutAll _ F) (hF.contains_child hlisted)
  intro x hx
  apply hF.childrenOf_cutAll_of_ne fun d hd => (hF.mem_childrenOf_iff p d).1 hd
  rintro rfl
  exact hF.not_ancestor_parent hlink hx

/-- Children of `p` taken one at a time, by any edit that cuts a child of `p`. -/
theorem forM_eq_cutAll (hF : F.WellFormed) {take : NodeId → Edit α Unit}
    (htake : ∀ {G : Forest α} {c}, G.WellFormed → c ∈ G.childrenOf p → take c G = .ok () (G.cut c).bumped)
    {l : List NodeId} (hnodup : l.Nodup) (hlisted : ∀ c ∈ l, c ∈ F.childrenOf p) :
    l.forM take F = .ok () (F.cutAll l.reverse) := by
  induction l generalizing F with
  | nil => rfl
  | cons c l ih =>
    obtain ⟨hc, hnodup⟩ := List.nodup_cons.1 hnodup
    -- those still to be taken are other nodes, so they are still listed
    have hrest : ∀ d ∈ l, d ∈ (F.cut c).bumped.childrenOf p := by
      intro d hd
      have hne : d ≠ c := by
        rintro rfl
        exact hc hd
      rw [childrenOf_bumped, childrenOf_cut]
      exact (List.mem_erase_of_ne hne).2 (hlisted d (List.mem_cons_of_mem _ hd))
    refine (bind_of_ok (htake hF (hlisted c (List.mem_cons_self ..)))).trans ?_
    refine (ih (hF.cut c).bumped hnodup hrest).trans ?_
    rw [List.reverse_cons, Forest.cutAll, Forest.cutAll, List.foldr_append]
    rfl

/-- All children of `p` taken one at a time in any order. -/
theorem forM_of_perm (hF : F.WellFormed) {take : NodeId → Edit α Unit}
    (htake : ∀ {G : Forest α} {c}, G.WellFormed → c ∈ G.childrenOf p → take c G = .ok () (G.cut c).bumped)
    {l : List NodeId} (h : l.Perm (F.childrenOf p)) : l.forM take F = .ok () (F.cutAll (F.childrenOf p)) := by
  have hnodup : l.Nodup := h.nodup_iff.2 (hF.nodup_childrenOf p)
  rw [hF.forM_eq_cutAll htake hnodup fun c hc => h.mem_iff.1 hc, cutAll_of_perm ((List.reverse_perm l).trans h)]

/-- A child has a position, and is found there. -/
theorem exists_indexOf (hF : F.WellFormed) (hlisted : c ∈ F.childrenOf p) :
    ∃ i, F.indexOf p c = .ok (some i) ∧ (F.childrenOf p)[i]? = some c := by
  have hlink := (hF.mem_childrenOf_iff p c).1 hlisted
  refine ⟨_, ?_, List.getElem?_idxOf hlisted⟩
  rw [indexOf_eq_ok (contains_of_mem_childrenOf hlisted), hF.idxOf?_of_parentOf hlink]

end WellFormed

/-! ## The four ways -/

namespace WellFormed

/-- Taking by position. -/
theorem removeAt_outcome (hF : F.WellFormed) (hp : F.contains p = true) (i : Nat) :
    ((F.childrenOf p).length ≤ i →
      removeAt p i F = .error (.tree (.outOfRange i (F.childrenOf p).length)) F) ∧
    (i < (F.childrenOf p).length → ∃ c G, F.child p i = .ok c ∧ removeAt p i F = .ok c G ∧
      Moved F c none G ∧ G.childrenOf p = (F.childrenOf p).eraseIdx i) := by
  constructor
  · intro hi
    rw [hF.removeAt_eq, if_neg (by simp [hp]), List.getElem?_eq_none hi]
  · intro hi
    obtain ⟨c, hc⟩ : ∃ c, (F.childrenOf p)[i]? = some c := ⟨_, List.getElem?_eq_getElem hi⟩
    have hchild := hF.contains_child_of_getElem? hc
    refine ⟨c, _, ?_, hF.removeAt_of_getElem? hc, hF.moved_cut hchild, ?_⟩
    · rw [child_eq hp, hc]
    · rw [childrenOf_bumped, childrenOf_cut, eraseIdx_of_nodup (hF.nodup_childrenOf p) hc]

/-- Taking by name. -/
theorem removeChild_outcome (hF : F.WellFormed) (hp : F.contains p = true) (hc : F.contains c = true) :
    (c ∉ F.childrenOf p → removeChild p c F = .error (.tree (.notAChild p c)) F) ∧
    (c ∈ F.childrenOf p → ∃ i G, F.indexOf p c = .ok (some i) ∧
      removeAt p i F = .ok c G ∧ removeChild p c F = .ok () G) := by
  constructor
  · intro hnot
    rw [hF.removeChild_eq, if_neg (by simp [hc]), if_neg (by simp [hp]), if_neg hnot]
  · intro hlisted
    obtain ⟨i, hindex, hi⟩ := hF.exists_indexOf hlisted
    exact ⟨i, _, hindex, hF.removeAt_of_getElem? hi, hF.removeChild_of_mem hlisted⟩

/-- Taking through the parent link. -/
theorem detach_outcome (hF : F.WellFormed) {n : NodeId} (hn : F.contains n = true) :
    (F.parentOf n = none → detach n F = .ok () F) ∧
    ∀ q, F.parentOf n = some q → ∃ G, removeChild q n F = .ok () G ∧ detach n F = .ok () G := by
  constructor
  · intro hroot
    rw [hF.detach_eq, if_neg (by simp [hn]), if_pos hroot]
  · intro q hq
    exact ⟨_, hF.removeChild_of_mem ((hF.mem_childrenOf_iff q n).2 hq), hF.detach_of_parentOf hq⟩

/-- Taking all children. -/
theorem removeAll_outcome (hF : F.WellFormed) (hp : F.contains p = true) :
    ∃ G, removeAll p F = .ok (F.childrenOf p) G ∧ G.childrenOf p = [] ∧
      (∀ c ∈ F.childrenOf p, G.parentOf c = none ∧ G.shape c = F.shape c ∧ G.subtree c = F.subtree c) ∧
      ∀ l : List NodeId, l.Perm (F.childrenOf p) →
        l.forM (removeChild p) F = .ok () G ∧ l.forM detach F = .ok () G := by
  refine ⟨F.cutAll (F.childrenOf p), ?_, hF.childrenOf_cutAll_self p, ?_, ?_⟩
  · rw [hF.removeAll_eq, if_neg (by simp [hp])]
  · intro c hlisted
    refine ⟨?_, hF.subtree_cutAll hlisted⟩
    rw [parentOf_cutAll, if_pos hlisted]
  · intro l hl
    refine ⟨hF.forM_of_perm (fun hG hlisted => hG.removeChild_of_mem hlisted) hl, ?_⟩
    exact hF.forM_of_perm (fun hG hlisted => hG.detach_of_parentOf ((hG.mem_childrenOf_iff p _).1 hlisted)) hl

end WellFormed

/-- **The ways to take a node away agree.** By position a child is taken unless the position is past the end; it becomes
    a root with all that hangs from it, its place in the list is closed up, and nothing else changes. By name the same is
    done with the child at the position where the name is found, and a node that is no child is refused. Through its
    own parent link a root is left as it is, and another node is taken by name from its parent, who does list it. Taking
    all children answers with their list and leaves the forest that is left when they are taken one at a time, in any
    order. -/
theorem taking_outcome (hF : F.Reachable) :
    (∀ p, F.contains p = true → ∀ i,
      ((F.childrenOf p).length ≤ i →
        removeAt p i F = .error (.tree (.outOfRange i (F.childrenOf p).length)) F) ∧
      (i < (F.childrenOf p).length → ∃ c G, F.child p i = .ok c ∧ removeAt p i F = .ok c G ∧
        Moved F c none G ∧ G.childrenOf p = (F.childrenOf p).eraseIdx i)) ∧
    (∀ p c, F.contains p = true → F.contains c = true →
      (c ∉ F.childrenOf p → removeChild p c F = .error (.tree (.notAChild p c)) F) ∧
      (c ∈ F.childrenOf p → ∃ i G, F.indexOf p c = .ok (some i) ∧
        removeAt p i F = .ok c G ∧ removeChild p c F = .ok () G)) ∧
    (∀ n, F.contains n = true →
      (F.parentOf n = none → detach n F = .ok () F) ∧
      ∀ q, F.parentOf n = some q → ∃ G, removeChild q n F = .ok () G ∧ detach n F = .ok () G) ∧
    (∀ n p c G, detach n F ≠ .error (.tree (.notAChild p c)) G) ∧
    ∀ p, F.contains p = true → ∃ G, removeAll p F = .ok (F.childrenOf p) G ∧ G.childrenOf p = [] ∧
      (∀ c ∈ F.childrenOf p, G.parentOf c = none ∧ G.shape c = F.shape c ∧ G.subtree c = F.subtree c) ∧
      ∀ l : List NodeId, l.Perm (F.childrenOf p) →
        l.forM (removeChild p) F = .ok () G ∧ l.forM detach F = .ok () G := by
  have hF := hF.wellFormed
  refine ⟨fun p hp => hF.removeAt_outcome hp, fun p c hp hc => hF.removeChild_outcome hp hc,
    fun n hn => hF.detach_outcome hn, ?_, fun p hp => hF.removeAll_outcome hp⟩
  intro n p c G hfail
  obtain ⟨-, hfailure, -⟩ := (hF.detach_eq_error_iff n _).1 hfail
  cases hfailure

/-- On a node with two children: the second one is found at position 1, and taking both from the right or from the left
    leaves the same forest. -/
theorem taking_outcome_of_fork :
    let F := (empty : Forest Nat).afterAll [.create 7, .create 8, .create 9, .add ⟨0, 0⟩ ⟨1, 0⟩, .add ⟨0, 0⟩ ⟨2, 0⟩]
    F.Reachable ∧
      (∃ c G, removeAt ⟨0, 0⟩ 1 F = .ok c G ∧ G.childrenOf ⟨0, 0⟩ = [⟨1, 0⟩]) ∧
      (∃ i G, F.indexOf ⟨0, 0⟩ ⟨2, 0⟩ = .ok (some i) ∧ removeAt ⟨0, 0⟩ i F = .ok ⟨2, 0⟩ G ∧ detach ⟨2, 0⟩ F = .ok () G) ∧
      ∃ G, removeAll ⟨0, 0⟩ F = .ok [⟨1, 0⟩, ⟨2, 0⟩] G ∧
        List.forM [⟨2, 0⟩, ⟨1, 0⟩] (removeChild ⟨0, 0⟩) F = .ok () G := by
  intro F
  have hF : F.Reachable := ⟨_, rfl⟩
  have hchildren : F.childrenOf ⟨0, 0⟩ = [⟨1, 0⟩, ⟨2, 0⟩] := rfl
  obtain ⟨hat, hchild, hlink, -, hall⟩ := taking_outcome hF
  refine ⟨hF, ?_, ?_, ?_⟩
  · obtain ⟨c, G, -, htaken, -, hlist⟩ := (hat ⟨0, 0⟩ (by decide) 1).2 (by decide)
    exact ⟨c, G, htaken, hlist⟩
  · obtain ⟨i, G, hindex, htaken, hnamed⟩ := (hchild ⟨0, 0⟩ ⟨2, 0⟩ (by decide) (by decide)).2 (by decide)
    obtain ⟨H, hnamed', hdetached⟩ := (hlink ⟨2, 0⟩ (by decide)).2 ⟨0, 0⟩ rfl
    rw [hnamed] at hnamed'
    cases hnamed'
    exact ⟨i, G, hindex, htaken, hdetached⟩
  · obtain ⟨G, htaken, -, -, horder⟩ := hall ⟨0, 0⟩ (by decide)
    have hswap : List.Perm [⟨2, 0⟩, ⟨1, 0⟩] (F.childrenOf ⟨0, 0⟩) := by
      rw [hchildren]
      exact List.Perm.swap _ _ []
    exact ⟨G, htaken, (horder _ hswap).1⟩

end Grove.Forest
