import Grove.Proofs.Forest.Ancestry
import Grove.Proofs.Forest.Partition
import Mathlib.Data.List.Pairwise

/-!
# `Proofs.Forest.SharedAncestor` — the lowest of the shared ancestors

The nearest shared ancestor is found by climbing, from two nodes that are on one level before long. Here it is compared
with what else is known of the two nodes (`sharedAncestor_lowest`): their ancestors, their roots, and the paths that
lead down to them. All of it follows from the answer being a meet (`sharedAncestor_eq`), for two nodes have one meet
only (`meet_unique`), and the last node that their paths share is one (`meet_getLast?`).
-/

namespace Grove.Forest

variable {α : Type} {F : Forest α}

namespace WellFormed

/-- The meet is the one node whose ancestors are the shared ones. -/
theorem meet_eq_some_iff (hF : F.WellFormed) {a b s : NodeId} (ha : F.contains a = true) {meet : Option NodeId}
    (h : F.Meet a b meet) :
    meet = some s ↔ F.contains s = true ∧
      ∀ z, F.contains z = true → (F.Ancestor z a ∧ F.Ancestor z b ↔ F.Ancestor z s) := by
  constructor
  · rintro rfl
    have hspec : ∀ z, F.Ancestor z a ∧ F.Ancestor z b ↔ F.Ancestor z s := fun z => (h z).trans (by simp)
    have hsa := ((hspec s).2 (ancestor_refl s)).1
    exact ⟨hF.contains_ancestor hsa ha, fun z _ => hspec z⟩
  · rintro ⟨hs, hspec⟩
    obtain ⟨t, rfl, hst⟩ := (h s).1 ((hspec s hs).2 (ancestor_refl s))
    -- `t` is shared as well, so that each of the two is above the other
    have hta := (h t).2 ⟨t, rfl, ancestor_refl t⟩
    have hts := (hspec t (hF.contains_ancestor hta.1 ha)).1 hta
    rw [hF.ancestor_antisymm hts hst]

theorem meet_unique (hF : F.WellFormed) {a b : NodeId} (ha : F.contains a = true) {meet meet' : Option NodeId}
    (h : F.Meet a b meet) (h' : F.Meet a b meet') : meet = meet' := by
  apply Option.ext
  intro s
  rw [hF.meet_eq_some_iff ha h, hF.meet_eq_some_iff ha h']

/-- Two nodes have no meet exactly if no root is above both. -/
theorem meet_eq_none_iff (hF : F.WellFormed) {a b r s : NodeId} (ha : F.contains a = true)
    (hb : F.contains b = true) {meet : Option NodeId} (h : F.Meet a b meet) (hr : F.root a = .ok r)
    (hs : F.root b = .ok s) : meet = none ↔ r ≠ s := by
  obtain ⟨hrlisted, hra⟩ := (hF.root_eq_ok_iff ha).1 hr
  obtain ⟨hslisted, hsb⟩ := (hF.root_eq_ok_iff hb).1 hs
  constructor
  · rintro rfl rfl
    obtain ⟨t, ht, -⟩ := (h r).1 ⟨hra, hsb⟩
    cases ht
  · intro hne
    by_contra hmeet
    obtain ⟨t, rfl⟩ := Option.ne_none_iff_exists'.1 hmeet
    -- the root of a shared ancestor is above both
    obtain ⟨hta, htb⟩ := (h t).2 ⟨t, rfl, ancestor_refl t⟩
    obtain ⟨u, -, hu, hut⟩ := hF.exists_root (hF.contains_ancestor hta ha)
    apply hne
    rw [hF.eq_of_mem_roots hrlisted hu hra (hut.trans hta), hF.eq_of_mem_roots hslisted hu hsb (hut.trans htb)]

/-- **The last node that two paths share** is the meet: the paths lead down, so the other shared nodes are above. -/
theorem meet_getLast? (hF : F.WellFormed) {a b : NodeId} (ha : F.contains a = true) (hb : F.contains b = true) :
    F.Meet a b ((F.chain a).reverse.filter (· ∈ (F.chain b).reverse)).getLast? := by
  have hmem : ∀ z, z ∈ (F.chain a).reverse.filter (· ∈ (F.chain b).reverse) ↔ F.Ancestor z a ∧ F.Ancestor z b := by
    intro z
    rw [List.mem_filter, decide_eq_true_iff, List.mem_reverse, List.mem_reverse, hF.mem_chain_iff ha,
      hF.mem_chain_iff hb]
  have hdown : ((F.chain a).reverse.filter (· ∈ (F.chain b).reverse)).Pairwise F.Ancestor :=
    (List.pairwise_reverse.2 (hF.climb_chain ha).pairwise).filter _
  intro z
  rw [← hmem z]
  constructor
  · intro hz
    have : Std.Refl F.Ancestor := ⟨ancestor_refl⟩
    exact ⟨_, List.getLast?_eq_some_getLast (List.ne_nil_of_mem hz), hdown.rel_getLast hz⟩
  · rintro ⟨s, hs, hzs⟩
    obtain ⟨hsa, hsb⟩ := (hmem s).1 (List.mem_of_getLast? hs)
    exact (hmem z).2 ⟨hzs.trans hsa, hzs.trans hsb⟩

end WellFormed

/-- **The nearest shared ancestor is the lowest one.** Two nodes have none exactly if their roots differ. Otherwise it
    is the one node whose ancestors are those of both, and the last that the paths down to the two have in common. It
    does not matter which of the two is asked. With an absent or stale name nothing is shared. -/
theorem sharedAncestor_lowest (hF : F.Reachable) :
    (∀ a b, F.contains a = true → F.contains b = true → ∃ meet r s pathA pathB,
      F.sharedAncestor a (some b) = .ok meet ∧ F.sharedAncestor b (some a) = .ok meet ∧
      F.root a = .ok r ∧ F.root b = .ok s ∧ (meet = none ↔ r ≠ s) ∧
      (∀ x, meet = some x ↔ F.contains x = true ∧
        ∀ z, F.contains z = true → (F.Ancestor z a ∧ F.Ancestor z b ↔ F.Ancestor z x)) ∧
      F.path a = .ok pathA ∧ F.path b = .ok pathB ∧ meet = (pathA.filter (· ∈ pathB)).getLast?) ∧
    ∀ a, F.sharedAncestor a none = .ok none ∧
      ∀ other, F.contains other = false → F.sharedAncestor a (some other) = .ok none := by
  have hF := hF.wellFormed
  constructor
  · intro a b ha hb
    obtain ⟨meet, hmeet, hspec⟩ := hF.sharedAncestor_eq ha hb
    obtain ⟨meet', hmeet', hspec'⟩ := hF.sharedAncestor_eq hb ha
    obtain rfl := hF.meet_unique ha hspec hspec'.symm
    obtain ⟨r, hr, -⟩ := hF.exists_root ha
    obtain ⟨s, hs, -⟩ := hF.exists_root hb
    exact ⟨meet, r, s, _, _, hmeet, hmeet', hr, hs, hF.meet_eq_none_iff ha hb hspec hr hs,
      fun x => hF.meet_eq_some_iff ha hspec, hF.path_eq ha, hF.path_eq hb,
      hF.meet_unique ha hspec (hF.meet_getLast? ha hb)⟩
  · intro a
    refine ⟨rfl, fun other hother => ?_⟩
    rw [sharedAncestor, resolve_of_not_contains hother]

/-- A node below the first of two children meets the other child at their parent, and a node of another tree nowhere. -/
theorem sharedAncestor_lowest_of_fork :
    let F := (empty : Forest Nat).afterAll
      [.create 7, .create 8, .create 9, .create 6, .create 5, .add ⟨0, 0⟩ ⟨1, 0⟩, .add ⟨0, 0⟩ ⟨2, 0⟩,
        .add ⟨1, 0⟩ ⟨3, 0⟩]
    F.Reachable ∧ F.sharedAncestor ⟨3, 0⟩ (some ⟨2, 0⟩) = .ok (some ⟨0, 0⟩) ∧
      F.sharedAncestor ⟨4, 0⟩ (some ⟨3, 0⟩) = .ok none ∧ F.sharedAncestor ⟨3, 0⟩ (some ⟨3, 1⟩) = .ok none := by
  intro F
  have hF : F.Reachable := ⟨_, rfl⟩
  obtain ⟨hpairs, habsent⟩ := sharedAncestor_lowest hF
  obtain ⟨meet, _, _, pathA, pathB, hmeet, -, -, -, -, -, hpathA, hpathB, hlast⟩ :=
    hpairs ⟨3, 0⟩ ⟨2, 0⟩ (by decide) (by decide)
  obtain ⟨meet', r, s, _, _, -, hmeet', hr, hs, hnone, -⟩ := hpairs ⟨3, 0⟩ ⟨4, 0⟩ (by decide) (by decide)
  obtain rfl : pathA = [⟨0, 0⟩, ⟨1, 0⟩, ⟨3, 0⟩] := Except.ok.inj (hpathA.symm.trans rfl)
  obtain rfl : pathB = [⟨0, 0⟩, ⟨2, 0⟩] := Except.ok.inj (hpathB.symm.trans rfl)
  obtain rfl : r = ⟨0, 0⟩ := Except.ok.inj (hr.symm.trans rfl)
  obtain rfl : s = ⟨4, 0⟩ := Except.ok.inj (hs.symm.trans rfl)
  obtain rfl : meet = some ⟨0, 0⟩ := hlast
  obtain rfl : meet' = none := hnone.2 (by decide)
  exact ⟨hF, hmeet, hmeet', (habsent ⟨3, 0⟩).2 ⟨3, 1⟩ (by decide)⟩

end Grove.Forest
