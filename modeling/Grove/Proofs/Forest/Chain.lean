import Grove.Forest.Chain
import Grove.Proofs.Forest.Links

/-!
# `Proofs.Forest.Chain` — climbing comes to an end

`chain n` lists the nodes met when climbing from `n`, the root of the tree last. In a well-formed forest these
are different nodes, so there are no more of them than the forest holds (`length_chain_le`): the fuel of a climb
is never used up. Each question that is answered by climbing is then a question about the chain
(`reaches_eq`, `level_eq`).

Since chains are bounded a forest can also be searched from its leaves upwards (`induction_down`).
-/

namespace Grove.Forest

variable {α : Type} {F : Forest α}

/-! ## Chains -/

/-- Climbing from `n` to a root meets the nodes listed, in this order. -/
inductive Climb (F : Forest α) : NodeId → List NodeId → Prop where
  | root {n : NodeId} (hroot : F.parentOf n = none) : Climb F n [n]
  | hop {n p : NodeId} {l : List NodeId} (hparent : F.parentOf n = some p) (hclimb : Climb F p l) :
      Climb F n (n :: l)

/-- The first nodes met when climbing from `n`, at most `fuel` of them. -/
def chainWithin (F : Forest α) : Nat → NodeId → List NodeId
  | 0, _ => []
  | fuel + 1, n =>
    match F.parentOf n with
    | none => [n]
    | some p => n :: F.chainWithin fuel p

/-- The nodes met when climbing from `n`, the root of the tree last. -/
def chain (F : Forest α) (n : NodeId) : List NodeId :=
  F.chainWithin F.size n

/-- The number of nodes above `n`. -/
def levelOf (F : Forest α) (n : NodeId) : Nat :=
  (F.chain n).length - 1

theorem Climb.length_pos {n : NodeId} {l : List NodeId} (h : F.Climb n l) : 0 < l.length := by
  cases h <;> simp

/-- Fuel for a climb is enough for its first hop. -/
theorem Climb.exists_fuel {n : NodeId} {l : List NodeId} (h : F.Climb n l) {fuel : Nat} (hfuel : l.length ≤ fuel) :
    ∃ k, fuel = k + 1 :=
  Nat.exists_eq_succ_of_ne_zero (Nat.ne_of_gt (Nat.lt_of_lt_of_le h.length_pos hfuel))

theorem Climb.head?_eq {n : NodeId} {l : List NodeId} (h : F.Climb n l) : l.head? = some n := by
  cases h <;> rfl

theorem Climb.mem_iff {n x : NodeId} {l : List NodeId} (h : F.Climb n l) : x ∈ l ↔ F.Ancestor x n := by
  induction h with
  | root hroot =>
    rw [ancestor_iff, hroot]
    simp
  | hop hparent _ ih =>
    rw [ancestor_iff, hparent, List.mem_cons, ih]
    simp

/-- What is met later is above what is met earlier. -/
theorem Climb.pairwise {n : NodeId} {l : List NodeId} (h : F.Climb n l) :
    l.Pairwise fun x y => F.Ancestor y x := by
  induction h with
  | root => exact List.pairwise_singleton _ _
  | hop hparent hclimb ih =>
    refine List.pairwise_cons.2 ⟨fun y hy => ?_, ih⟩
    exact (hclimb.mem_iff.1 hy).trans (ancestor_of_parentOf hparent)

theorem Climb.chainWithin_eq {n : NodeId} {l : List NodeId} (h : F.Climb n l) (fuel : Nat)
    (hfuel : l.length ≤ fuel) : F.chainWithin fuel n = l := by
  induction h generalizing fuel with
  | root hroot =>
    obtain ⟨k, rfl⟩ := (Climb.root hroot).exists_fuel hfuel
    simp [chainWithin, hroot]
  | hop hparent hclimb ih =>
    obtain ⟨k, rfl⟩ := (Climb.hop hparent hclimb).exists_fuel hfuel
    simp only [chainWithin, hparent]
    rw [ih k (by simpa using hfuel)]

namespace WellFormed

theorem exists_climb (hF : F.WellFormed) (n : NodeId) : ∃ l, F.Climb n l := by
  -- parent links are well-founded, so one may rely on a climb from the parent
  induction n using hF.wellFounded.induction with
  | _ n ih =>
    cases hparent : F.parentOf n with
    | none => exact ⟨[n], .root hparent⟩
    | some p =>
      obtain ⟨l, hl⟩ := ih p hparent
      exact ⟨n :: l, .hop hparent hl⟩

/-- The nodes of a chain are different: a node is no ancestor of its parent. -/
theorem nodup_of_climb (hF : F.WellFormed) {n : NodeId} {l : List NodeId} (h : F.Climb n l) : l.Nodup := by
  induction h with
  | root => simp
  | hop hparent hclimb ih =>
    refine List.nodup_cons.2 ⟨fun hmem => ?_, ih⟩
    exact hF.not_ancestor_parent hparent (hclimb.mem_iff.1 hmem)

theorem length_climb_le (hF : F.WellFormed) {n : NodeId} {l : List NodeId} (h : F.Climb n l)
    (hn : F.contains n = true) : l.length ≤ F.size :=
  hF.sound.length_le_size (hF.nodup_of_climb h) fun _ hx => hF.contains_ancestor (h.mem_iff.1 hx) hn

theorem climb_chain (hF : F.WellFormed) {n : NodeId} (hn : F.contains n = true) : F.Climb n (F.chain n) := by
  obtain ⟨l, hl⟩ := hF.exists_climb n
  rw [chain, hl.chainWithin_eq _ (hF.length_climb_le hl hn)]
  exact hl

/-- A chain has no more nodes than the forest. -/
theorem length_chain_le (hF : F.WellFormed) {n : NodeId} (hn : F.contains n = true) :
    (F.chain n).length ≤ F.size :=
  hF.length_climb_le (hF.climb_chain hn) hn

theorem chain_of_climb (hF : F.WellFormed) {n : NodeId} {l : List NodeId} (h : F.Climb n l)
    (hn : F.contains n = true) : F.chain n = l :=
  h.chainWithin_eq _ (hF.length_climb_le h hn)

theorem mem_chain_iff (hF : F.WellFormed) {n x : NodeId} (hn : F.contains n = true) :
    x ∈ F.chain n ↔ F.Ancestor x n :=
  (hF.climb_chain hn).mem_iff

theorem chain_of_root (hF : F.WellFormed) {n : NodeId} (hn : F.contains n = true)
    (hroot : F.parentOf n = none) : F.chain n = [n] :=
  hF.chain_of_climb (.root hroot) hn

/-- The chain of a node goes on with that of its parent. -/
theorem chain_of_parentOf (hF : F.WellFormed) {n p : NodeId} (hparent : F.parentOf n = some p) :
    F.chain n = n :: F.chain p :=
  hF.chain_of_climb (.hop hparent (hF.climb_chain (hF.contains_parent hparent)))
    (contains_of_parentOf hparent)

/-- A child is one level below its parent. -/
theorem levelOf_child (hF : F.WellFormed) {n p : NodeId} (hparent : F.parentOf n = some p) :
    F.levelOf n = F.levelOf p + 1 := by
  have hpos := (hF.climb_chain (hF.contains_parent hparent)).length_pos
  simp only [levelOf, hF.chain_of_parentOf hparent, List.length_cons]
  omega

/-- Climbing does not lead down. -/
theorem levelOf_le_of_ancestor (hF : F.WellFormed) {a n : NodeId} (h : F.Ancestor a n) :
    F.levelOf a ≤ F.levelOf n := by
  induction h with
  | refl => exact Nat.le_refl _
  | tail _ hlink ih =>
    rw [hF.levelOf_child hlink]
    exact Nat.le_succ_of_le ih

theorem levelOf_lt_of_ancestor (hF : F.WellFormed) {a n : NodeId} (h : F.Ancestor a n) (hne : a ≠ n) :
    F.levelOf a < F.levelOf n := by
  rcases ancestor_iff.1 h with heq | ⟨p, hp, hap⟩
  · exact absurd heq hne
  · have hle := hF.levelOf_le_of_ancestor hap
    rw [hF.levelOf_child hp]
    omega

/-- Two nodes are not each above the other. -/
theorem ancestor_antisymm (hF : F.WellFormed) {a b : NodeId} (hab : F.Ancestor a b) (hba : F.Ancestor b a) :
    a = b := by
  by_contra hne
  have hlt := hF.levelOf_lt_of_ancestor hab hne
  have hle := hF.levelOf_le_of_ancestor hba
  omega

theorem levelOf_of_root (hF : F.WellFormed) {n : NodeId} (hn : F.contains n = true)
    (hroot : F.parentOf n = none) : F.levelOf n = 0 := by
  rw [levelOf, hF.chain_of_root hn hroot]
  rfl

/-- The roots are the nodes on level 0. -/
theorem levelOf_eq_zero_iff (hF : F.WellFormed) {n : NodeId} (hn : F.contains n = true) :
    F.levelOf n = 0 ↔ F.parentOf n = none := by
  constructor
  · intro hzero
    cases hp : F.parentOf n with
    | none => rfl
    | some p =>
      rw [hF.levelOf_child hp] at hzero
      omega
  · exact hF.levelOf_of_root hn

/-- The height of a forest is bounded. -/
theorem levelOf_lt_size (hF : F.WellFormed) {n : NodeId} (hn : F.contains n = true) :
    F.levelOf n < F.size := by
  have hpos := (hF.climb_chain hn).length_pos
  have hle := hF.length_chain_le hn
  simp only [levelOf]
  omega

/-- What holds of a node as soon as it holds of its children holds of every node. -/
theorem induction_down (hF : F.WellFormed) {P : ∀ n, F.contains n = true → Prop}
    (step : ∀ n (hn : F.contains n = true), (∀ c (hc : c ∈ F.childrenOf n), P c (hF.contains_child hc)) → P n hn)
    (n : NodeId) (hn : F.contains n = true) : P n hn := by
  -- the induction is on the room that is left below a node: no level is beyond the forest's size
  induction hroom : F.size - F.levelOf n using Nat.strong_induction_on generalizing n with
  | _ room ih =>
    apply step n hn
    intro c hc
    have hparent := (hF.mem_childrenOf_iff n c).1 hc
    have hlevel := hF.levelOf_child hparent
    have hlt := hF.levelOf_lt_size hn
    exact ih (F.size - F.levelOf c) (by omega) c (hF.contains_child hc) rfl

end WellFormed

/-! ## Questions answered by climbing -/

theorem parent_eq_ok {n : NodeId} (hn : F.contains n = true) : F.parent n = .ok (F.parentOf n) := by
  obtain ⟨node, hnode⟩ := contains_iff.1 hn
  simp [parent, linked_eq_ok_iff.2 hnode, parentOf_of_get? hnode, bind, Except.bind, pure, Except.pure]

theorem Climb.meets_eq (hF : F.WellFormed) {n : NodeId} {l : List NodeId} (h : F.Climb n l)
    (hn : F.contains n = true) (target : NodeId) (fuel : Nat) (hfuel : l.length ≤ fuel) :
    F.meets target fuel n = .ok (decide (target ∈ l)) := by
  induction h generalizing fuel with
  | @root n hroot =>
    obtain ⟨k, rfl⟩ := (Climb.root hroot).exists_fuel hfuel
    by_cases heq : n = target
    · simp [meets, heq]
    · simp [meets, heq, Ne.symm heq, parent_eq_ok hn, hroot, bind, Except.bind, pure, Except.pure]
  | @hop n p l hparent hclimb ih =>
    obtain ⟨k, rfl⟩ := (Climb.hop hparent hclimb).exists_fuel hfuel
    by_cases heq : n = target
    · simp [meets, heq]
    · have hrec := ih (hF.contains_parent hparent) k (by simpa using hfuel)
      simp [meets, heq, Ne.symm heq, parent_eq_ok hn, hparent, hrec, bind, Except.bind]

/-- `reaches` asks whether a node is on the chain of another. -/
theorem WellFormed.reaches_eq (hF : F.WellFormed) {n : NodeId} (hn : F.contains n = true) (target : NodeId) :
    F.reaches n target = .ok (decide (target ∈ F.chain n)) :=
  (hF.climb_chain hn).meets_eq hF hn target _ (hF.length_chain_le hn)

/-- A climb that goes on until there is no parent ends at a root, the last node that is met. -/
theorem Climb.exists_topFrom (hF : F.WellFormed) {n : NodeId} {l : List NodeId} (h : F.Climb n l)
    (hn : F.contains n = true) (fuel : Nat) (hfuel : l.length ≤ fuel) :
    ∃ r, F.topFrom fuel n = .ok r ∧ l.getLast? = some r ∧ F.parentOf r = none := by
  induction h generalizing fuel with
  | @root n hroot =>
    obtain ⟨k, rfl⟩ := (Climb.root hroot).exists_fuel hfuel
    refine ⟨n, ?_, rfl, hroot⟩
    simp [topFrom, parent_eq_ok hn, hroot, bind, Except.bind, pure, Except.pure]
  | @hop n p l hparent hclimb ih =>
    obtain ⟨k, rfl⟩ := (Climb.hop hparent hclimb).exists_fuel hfuel
    obtain ⟨r, htop, hlast, hroot⟩ := ih (hF.contains_parent hparent) k (by simpa using hfuel)
    refine ⟨r, ?_, ?_, hroot⟩
    · simp [topFrom, parent_eq_ok hn, hparent, htop, bind, Except.bind]
    · rw [List.getLast?_cons, hlast, Option.getD_some]

/-- Every node has a root above it. -/
theorem WellFormed.exists_root (hF : F.WellFormed) {n : NodeId} (hn : F.contains n = true) :
    ∃ r, F.root n = .ok r ∧ r ∈ F.roots ∧ F.Ancestor r n := by
  obtain ⟨r, htop, hlast, hroot⟩ := (hF.climb_chain hn).exists_topFrom hF hn _ (hF.length_chain_le hn)
  have hup := (hF.mem_chain_iff hn).1 (List.mem_of_getLast? hlast)
  exact ⟨r, htop, mem_roots_iff.2 ⟨hF.contains_ancestor hup hn, hroot⟩, hup⟩

theorem Climb.hopsFrom_eq (hF : F.WellFormed) {n : NodeId} {l : List NodeId} (h : F.Climb n l)
    (hn : F.contains n = true) (hops fuel : Nat) (hfuel : l.length ≤ fuel) :
    F.hopsFrom fuel hops n = .ok (hops + (l.length - 1)) := by
  induction h generalizing fuel hops with
  | @root n hroot =>
    obtain ⟨k, rfl⟩ := (Climb.root hroot).exists_fuel hfuel
    simp [hopsFrom, parent_eq_ok hn, hroot, bind, Except.bind, pure, Except.pure]
  | @hop n p l hparent hclimb ih =>
    obtain ⟨k, rfl⟩ := (Climb.hop hparent hclimb).exists_fuel hfuel
    have hrec := ih (hF.contains_parent hparent) (hops + 1) k (by simpa using hfuel)
    have hpos := hclimb.length_pos
    simp only [hopsFrom, parent_eq_ok hn, hparent, hrec, bind, Except.bind, List.length_cons]
    congr 1
    omega

/-- The level of a node is the number of nodes above it. -/
theorem WellFormed.level_eq (hF : F.WellFormed) {n : NodeId} (hn : F.contains n = true) :
    F.level n = .ok (F.levelOf n) := by
  rw [level, (hF.climb_chain hn).hopsFrom_eq hF hn 0 _ (hF.length_chain_le hn), Nat.zero_add]
  rfl

/-- A node goes right before the places that are kept for the nodes below it. -/
theorem pathInto_of_parentOf {n : NodeId} (hn : F.contains n = true) {start : NodeId} {fuel below : Nat}
    {front : List NodeId}
    (h : F.pathInto start fuel (F.parentOf n) (below + 1)
      = .ok (front ++ List.replicate (below + 1) start).toArray) :
    F.pathInto start (fuel + 1) (some n) below = .ok (front ++ n :: List.replicate below start).toArray := by
  have hsize : (front ++ List.replicate (below + 1) start).toArray.size = front.length + below + 1 := by
    rw [List.size_toArray, List.length_append, List.length_replicate]
    omega
  have hplace : front.length + below + 1 - below - 1 = front.length := by omega
  have hset : (front ++ List.replicate (below + 1) start).toArray.setIfInBounds front.length n
      = (front ++ n :: List.replicate below start).toArray := by
    rw [List.setIfInBounds_toArray, List.set_append_right _ _ (Nat.le_refl _), Nat.sub_self, List.replicate_succ,
      List.set_cons_zero]
  rw [pathInto, parent_eq_ok hn]
  show (F.pathInto start fuel (F.parentOf n) (below + 1) >>= fun path =>
    if below < path.size then pure (path.setIfInBounds (path.size - below - 1) n)
    else .error (.breach (.shortPath start))) = _
  rw [h]
  show (if below < (front ++ List.replicate (below + 1) start).toArray.size then _ else _) = _
  rw [hsize, if_pos (by omega), hplace, hset]
  rfl

theorem Climb.pathInto_eq (hF : F.WellFormed) {n : NodeId} {l : List NodeId} (h : F.Climb n l)
    (hn : F.contains n = true) (start : NodeId) (below fuel : Nat) (hfuel : l.length ≤ fuel) :
    F.pathInto start fuel (some n) below = .ok (l.reverse ++ List.replicate below start).toArray := by
  induction h generalizing fuel below with
  | @root n hroot =>
    obtain ⟨k, rfl⟩ := (Climb.root hroot).exists_fuel hfuel
    -- above the root the buffer is made, with one place for each node of the path
    have hbuffer : F.pathInto start k (F.parentOf n) (below + 1)
        = .ok ([] ++ List.replicate (below + 1) start).toArray := by
      rw [hroot, pathInto]
      rfl
    exact pathInto_of_parentOf hn hbuffer
  | @hop n p l hparent hclimb ih =>
    obtain ⟨k, rfl⟩ := (Climb.hop hparent hclimb).exists_fuel hfuel
    have hfront := ih (hF.contains_parent hparent) (below + 1) k (by simpa using hfuel)
    rw [← hparent] at hfront
    rw [List.reverse_cons, List.append_assoc, List.singleton_append]
    exact pathInto_of_parentOf hn hfront

/-- The path down to a node is its chain, read from the root. -/
theorem WellFormed.path_eq (hF : F.WellFormed) {n : NodeId} (hn : F.contains n = true) :
    F.path n = .ok (F.chain n).reverse := by
  rw [path, (hF.climb_chain hn).pathInto_eq hF hn n 0 _ (hF.length_chain_le hn)]
  simp [bind, Except.bind, pure, Except.pure]

end Grove.Forest
