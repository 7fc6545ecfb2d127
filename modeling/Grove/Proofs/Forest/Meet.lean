import Grove.Proofs.Forest.Chain

/-!
# `Proofs.Forest.Meet` — where two chains meet

Climbing from two nodes of one tree leads to nodes that are above both, and the first of them is the *meet* of the
two: its ancestors are exactly the common ones (`Meet`). Chains of different trees do not meet.

A node is never met above its own level (`levelOf_le_of_ancestor`), so the deeper of two nodes is no ancestor of
the other, and climbing from it loses no common ancestor. From one level on both climb together, and as long as
they differ neither is a common ancestor (`joint_eq`).
-/

namespace Grove.Forest

variable {α : Type} {F : Forest α}

/-- `meet` is where the chains of `a` and `b` meet: the ancestors of both are those of this node, if there is
    one. -/
def Meet (F : Forest α) (a b : NodeId) (meet : Option NodeId) : Prop :=
  ∀ z, F.Ancestor z a ∧ F.Ancestor z b ↔ ∃ s ∈ meet, F.Ancestor z s

namespace WellFormed

/-! ## Climbing together -/

/-- Of two nodes, one that is no ancestor of the other may be replaced by its parent. -/
theorem common_ancestor_iff {a b p : NodeId} (hp : F.parentOf a = some p) (hab : ¬ F.Ancestor a b) (z : NodeId) :
    F.Ancestor z a ∧ F.Ancestor z b ↔ F.Ancestor z p ∧ F.Ancestor z b := by
  constructor
  · rintro ⟨hza, hzb⟩
    rcases ancestor_iff.1 hza with rfl | ⟨q, hq, hzq⟩
    · exact absurd hzb hab
    · obtain rfl : p = q := Option.some.inj (hp.symm.trans hq)
      exact ⟨hzq, hzb⟩
  · rintro ⟨hzp, hzb⟩
    exact ⟨hzp.trans (ancestor_of_parentOf hp), hzb⟩

/-- The node that is deeper climbs to the level of the other, and the common ancestors stay the same. -/
theorem climb_eq (hF : F.WellFormed) {a b : NodeId} (ha : F.contains a = true) (hops : Nat)
    (hlevel : F.levelOf a = F.levelOf b + hops) :
    ∃ c, F.climb hops a = .ok (some c) ∧ F.contains c = true ∧ F.levelOf c = F.levelOf b ∧
      ∀ z, F.Ancestor z a ∧ F.Ancestor z b ↔ F.Ancestor z c ∧ F.Ancestor z b := by
  induction hops generalizing a with
  | zero => exact ⟨a, rfl, ha, hlevel, fun z => Iff.rfl⟩
  | succ hops ih =>
    have hab : ¬ F.Ancestor a b := by
      intro h
      have hle := hF.levelOf_le_of_ancestor h
      omega
    obtain ⟨p, hp⟩ : ∃ p, F.parentOf a = some p := by
      rw [← Option.ne_none_iff_exists', Ne, ← hF.levelOf_eq_zero_iff ha]
      omega
    have hchild := hF.levelOf_child hp
    obtain ⟨c, hclimb, hc, hclevel, hcommon⟩ := ih (hF.contains_parent hp) (by omega)
    refine ⟨c, ?_, hc, hclevel, fun z => (common_ancestor_iff hp hab z).trans (hcommon z)⟩
    simp only [climb, parent_eq_ok ha, hp]
    exact hclimb

/-- Nodes on one level climb together to the meet. No level is beyond the forest's size, so the fuel lasts. -/
theorem joint_eq (hF : F.WellFormed) (fuel : Nat) {a b : NodeId} (ha : F.contains a = true)
    (hb : F.contains b = true) (hlevel : F.levelOf a = F.levelOf b) (hfuel : F.levelOf a < fuel) :
    ∃ meet, F.joint fuel a b = .ok meet ∧ F.Meet a b meet := by
  induction fuel generalizing a b with
  | zero => omega
  | succ fuel ih =>
    by_cases hab : a = b
    · subst hab
      exact ⟨some a, by rw [joint, if_pos rfl], fun z => by simp⟩
    -- neither node is above the other, for they are different and on one level
    have hup : ¬ F.Ancestor a b := fun h => absurd (hF.levelOf_lt_of_ancestor h hab) (by omega)
    have hdown : ¬ F.Ancestor b a := fun h => absurd (hF.levelOf_lt_of_ancestor h (Ne.symm hab)) (by omega)
    have hroots : F.parentOf a = none ↔ F.parentOf b = none := by
      rw [← hF.levelOf_eq_zero_iff ha, ← hF.levelOf_eq_zero_iff hb, hlevel]
    cases hp : F.parentOf a with
    | none =>
      have hq := hroots.1 hp
      refine ⟨none, ?_, fun z => ?_⟩
      · simp only [joint, if_neg hab, parent_eq_ok ha, parent_eq_ok hb, hp, hq]
        rfl
      · -- the only ancestor of a root is the root itself
        constructor
        · rintro ⟨hza, hzb⟩
          rcases ancestor_iff.1 hza with rfl | ⟨p, hp', -⟩
          · exact absurd hzb hup
          · exact absurd (hp.symm.trans hp') nofun
        · rintro ⟨s, hs, -⟩
          cases hs
    | some p =>
      obtain ⟨q, hq⟩ : ∃ q, F.parentOf b = some q := by
        rw [← Option.ne_none_iff_exists', Ne, ← hroots, hp]
        exact nofun
      have hplevel := hF.levelOf_child hp
      have hqlevel := hF.levelOf_child hq
      obtain ⟨meet, hjoint, hmeet⟩ :=
        ih (hF.contains_parent hp) (hF.contains_parent hq) (by omega) (by omega)
      refine ⟨meet, ?_, fun z => ?_⟩
      · simp only [joint, if_neg hab, parent_eq_ok ha, parent_eq_ok hb, hp, hq]
        exact hjoint
      · have hqp : ¬ F.Ancestor b p := fun h => hdown (h.trans (ancestor_of_parentOf hp))
        calc F.Ancestor z a ∧ F.Ancestor z b
            ↔ F.Ancestor z p ∧ F.Ancestor z b := common_ancestor_iff hp hup z
          _ ↔ F.Ancestor z b ∧ F.Ancestor z p := and_comm
          _ ↔ F.Ancestor z q ∧ F.Ancestor z p := common_ancestor_iff hq hqp z
          _ ↔ F.Ancestor z p ∧ F.Ancestor z q := and_comm
          _ ↔ ∃ s ∈ meet, F.Ancestor z s := hmeet z

end WellFormed

/-! ## The nearest shared ancestor -/

theorem resolve_of_contains {n : NodeId} (hn : F.contains n = true) : F.resolve (some n) = some n := by
  rw [resolve, Option.filter_some, if_pos hn]

theorem Meet.symm {a b : NodeId} {meet : Option NodeId} (h : F.Meet a b meet) : F.Meet b a meet :=
  fun z => and_comm.trans (h z)

namespace WellFormed

/-- After the deeper node has climbed to the level of the other, both climb to the meet. -/
theorem climb_then_joint_eq (hF : F.WellFormed) {a b : NodeId} (ha : F.contains a = true)
    (hb : F.contains b = true) (hlevel : F.levelOf b ≤ F.levelOf a) :
    ∃ c meet, F.climb (F.levelOf a - F.levelOf b) a = .ok (some c) ∧ F.joint F.size c b = .ok meet ∧
      F.Meet a b meet := by
  obtain ⟨c, hclimb, hc, hclevel, hcommon⟩ := hF.climb_eq (b := b) ha (F.levelOf a - F.levelOf b) (by omega)
  obtain ⟨meet, hjoint, hmeet⟩ := hF.joint_eq F.size hc hb hclevel (hF.levelOf_lt_size hc)
  exact ⟨c, meet, hclimb, hjoint, fun z => (hcommon z).trans (hmeet z)⟩

/-- **The nearest shared ancestor of two nodes is their meet.** -/
theorem sharedAncestor_eq (hF : F.WellFormed) {a b : NodeId} (ha : F.contains a = true)
    (hb : F.contains b = true) : ∃ meet, F.sharedAncestor a (some b) = .ok meet ∧ F.Meet a b meet := by
  unfold sharedAncestor
  simp only [resolve_of_contains hb]
  by_cases heq : b = a
  · subst heq
    exact ⟨some b, by rw [if_pos rfl], fun z => by simp⟩
  simp only [if_neg heq, hF.level_eq ha, hF.level_eq hb, bind, Except.bind]
  by_cases hlt : F.levelOf a < F.levelOf b
  · obtain ⟨c, meet, hclimb, hjoint, hmeet⟩ := hF.climb_then_joint_eq hb ha (Nat.le_of_lt hlt)
    refine ⟨meet, ?_, hmeet.symm⟩
    simp only [if_pos hlt, descent_of_le b (Nat.le_of_lt hlt), hclimb]
    exact hjoint
  · obtain ⟨c, meet, hclimb, hjoint, hmeet⟩ := hF.climb_then_joint_eq ha hb (Nat.not_lt.1 hlt)
    refine ⟨meet, ?_, hmeet⟩
    simp only [if_neg hlt, descent_of_le a (Nat.not_lt.1 hlt), hclimb]
    exact hjoint

/-- The meet of two nodes is the first of them exactly if that one is above the other. -/
theorem meet_eq_left_iff (hF : F.WellFormed) {a b : NodeId} {meet : Option NodeId} (h : F.Meet a b meet) :
    meet = some a ↔ F.Ancestor a b := by
  constructor
  · rintro rfl
    exact ((h a).2 ⟨a, rfl, ancestor_refl a⟩).2
  · intro hab
    obtain ⟨s, rfl, has⟩ := (h a).1 ⟨ancestor_refl a, hab⟩
    have hsa := ((h s).2 ⟨s, rfl, ancestor_refl s⟩).1
    rw [hF.ancestor_antisymm has hsa]

end WellFormed

end Grove.Forest
