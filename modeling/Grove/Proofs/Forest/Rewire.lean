import Grove.Proofs.Forest.Chain

/-!
# `Proofs.Forest.Rewire` — cutting and grafting

Two changes of the links that the edits are made of. `cut c` makes `c` a root: it loses its parent and no node
lists it any more. `graft p i c` lists a root `c` among the children of `p` at position `i` and makes `p` its
parent. Both are described for the whole forest at once (`rewire`), so that nothing remains to be said about the
nodes they leave alone.

Cutting keeps a forest well-formed whatever is cut (`WellFormed.cut`); grafting does so as long as the new parent
is not in the subtree that is moved (`WellFormed.graft`).
-/

namespace Grove.Forest

variable {α : Type} {F : Forest α}

/-! ## Rewiring -/

/-- Every node changed, with its name at hand. -/
def rewire (f : NodeId → Node α → Node α) (F : Forest α) : Forest α :=
  { F with nodes := F.nodes.mapNamed f }

/-- A structural write counted. -/
def bumped (F : Forest α) : Forest α :=
  { F with generation := F.generation + 1 }

@[simp] theorem get?_rewire (f : NodeId → Node α → Node α) (F : Forest α) (n : NodeId) :
    (F.rewire f).get? n = (F.get? n).map (f n) :=
  Arena.get?_mapNamed f F.nodes n

@[simp] theorem contains_rewire (f : NodeId → Node α → Node α) (F : Forest α) (n : NodeId) :
    (F.rewire f).contains n = F.contains n :=
  Arena.contains_mapNamed f F.nodes n

@[simp] theorem get?_bumped (F : Forest α) (n : NodeId) : F.bumped.get? n = F.get? n := rfl

@[simp] theorem contains_bumped (F : Forest α) (n : NodeId) : F.bumped.contains n = F.contains n := rfl

@[simp] theorem parentOf_bumped (F : Forest α) (n : NodeId) : F.bumped.parentOf n = F.parentOf n := rfl

@[simp] theorem childrenOf_bumped (F : Forest α) (n : NodeId) : F.bumped.childrenOf n = F.childrenOf n := rfl

theorem bumped_bumped (F : Forest α) : F.bumped.bumped = { F with generation := F.generation + 2 } := by
  show ({ F with generation := F.generation + 1 + 1 } : Forest α) = _
  rw [UInt64.add_assoc]
  rfl

theorem rewire_rewire (f g : NodeId → Node α → Node α) (F : Forest α) :
    (F.rewire f).rewire g = F.rewire fun n node => g n (f n node) := by
  simp only [rewire, Arena.mapNamed_mapNamed]

theorem rewire_congr {f g : NodeId → Node α → Node α}
    (h : ∀ n node, F.get? n = some node → f n node = g n node) : F.rewire f = F.rewire g := by
  simp only [rewire, Arena.mapNamed_congr h]

theorem rewire_eq_self {f : NodeId → Node α → Node α} (h : ∀ n node, F.get? n = some node → f n node = node) :
    F.rewire f = F := by
  simp only [rewire, Arena.mapNamed_eq_self h]

theorem WellFormed.bumped (hF : F.WellFormed) : F.bumped.WellFormed :=
  ⟨hF.sound, hF.mem_childrenOf_iff, hF.nodup_childrenOf, hF.wellFounded⟩

/-! ## Forests with the same links -/

/-- The links are the same, and so are the names that resolve and the arena's bookkeeping. -/
theorem WellFormed.of_links {G : Forest α} (hF : F.WellFormed) (hsound : G.nodes.Sound)
    (hparent : G.parentOf = F.parentOf) (hchildren : G.childrenOf = F.childrenOf) : G.WellFormed where
  sound := hsound
  mem_childrenOf_iff := by rw [hparent, hchildren]; exact hF.mem_childrenOf_iff
  nodup_childrenOf := by rw [hchildren]; exact hF.nodup_childrenOf
  wellFounded := by
    have hlink : G.Link = F.Link := by
      funext p c
      simp only [Link, hparent]
    rw [hlink]
    exact hF.wellFounded

/-! ## Cutting -/

/-- `c` without its parent, and off every list. -/
def cut (c : NodeId) (F : Forest α) : Forest α :=
  F.rewire fun n node =>
    { node with parent := if n = c then none else node.parent, children := node.children.erase c }

@[simp] theorem contains_cut (c n : NodeId) (F : Forest α) : (F.cut c).contains n = F.contains n :=
  contains_rewire ..

@[simp] theorem parentOf_cut (c n : NodeId) (F : Forest α) :
    (F.cut c).parentOf n = if n = c then none else F.parentOf n := by
  show ((F.cut c).get? n).bind Node.parent = if n = c then none else (F.get? n).bind Node.parent
  rw [cut, get?_rewire]
  cases F.get? n <;> simp

@[simp] theorem childrenOf_cut (c n : NodeId) (F : Forest α) :
    (F.cut c).childrenOf n = (F.childrenOf n).erase c := by
  show (((F.cut c).get? n).map Node.children).getD [] = (((F.get? n).map Node.children).getD []).erase c
  rw [cut, get?_rewire]
  cases F.get? n <;> simp

theorem link_of_link_cut {c p n : NodeId} (h : (F.cut c).Link p n) : n ≠ c ∧ F.Link p n := by
  unfold Link at h ⊢
  rw [parentOf_cut] at h
  split at h
  · simp at h
  · rename_i hn
    exact ⟨hn, h⟩

/-- Cutting adds no ancestors. -/
theorem ancestor_of_ancestor_cut {a n c : NodeId} (h : (F.cut c).Ancestor a n) : F.Ancestor a n :=
  Relation.ReflTransGen.mono (fun _ _ hlink => (link_of_link_cut hlink).2) a n h

theorem WellFormed.cut (hF : F.WellFormed) (c : NodeId) : (F.cut c).WellFormed where
  sound := hF.sound.mapNamed _
  mem_childrenOf_iff p n := by
    rw [childrenOf_cut, parentOf_cut, (hF.nodup_childrenOf p).mem_erase_iff, hF.mem_childrenOf_iff]
    by_cases hn : n = c <;> simp [hn]
  nodup_childrenOf p := by
    rw [childrenOf_cut]
    exact (hF.nodup_childrenOf p).erase c
  wellFounded := Subrelation.wf (fun hlink => (link_of_link_cut hlink).2) hF.wellFounded

/-- A root is cut already. -/
theorem WellFormed.cut_of_root (hF : F.WellFormed) {c : NodeId} (hroot : F.parentOf c = none) :
    F.cut c = F := by
  apply rewire_eq_self
  intro n node hnode
  have hlist : c ∉ node.children := by
    rw [← childrenOf_of_get? hnode, hF.mem_childrenOf_iff, hroot]
    simp
  have hparent : (if n = c then none else node.parent) = node.parent := by
    split
    · rename_i hn
      rw [← parentOf_of_get? hnode, hn, hroot]
    · rfl
  rw [hparent, List.erase_of_not_mem hlist]

/-- The nodes listed, cut one after the other, the last of them first; each counts. -/
def cutAll (l : List NodeId) (F : Forest α) : Forest α :=
  l.foldr (fun c G => (G.cut c).bumped) F

theorem generation_cutAll (l : List NodeId) (F : Forest α) :
    (F.cutAll l).generation = F.generation + UInt64.ofNat l.length := by
  induction l with
  | nil => exact (UInt64.add_zero _).symm
  | cons c l ih =>
    rw [List.length_cons, UInt64.ofNat_add, ← UInt64.add_assoc, ← ih]
    rfl

theorem WellFormed.cutAll (hF : F.WellFormed) (l : List NodeId) : (F.cutAll l).WellFormed := by
  induction l with
  | nil => exact hF
  | cons c l ih => exact (ih.cut c).bumped

/-! ## Grafting -/

/-- `c` as a child of `p` at position `i`. -/
def graft (p : NodeId) (i : Nat) (c : NodeId) (F : Forest α) : Forest α :=
  F.rewire fun n node =>
    { node with
      parent := if n = c then some p else node.parent
      children := if n = p then node.children.insertIdx i c else node.children }

@[simp] theorem contains_graft (p : NodeId) (i : Nat) (c n : NodeId) (F : Forest α) :
    (F.graft p i c).contains n = F.contains n :=
  contains_rewire ..

theorem parentOf_graft {p c : NodeId} (i : Nat) (hc : F.contains c = true) (n : NodeId) :
    (F.graft p i c).parentOf n = if n = c then some p else F.parentOf n := by
  show ((F.graft p i c).get? n).bind Node.parent = if n = c then some p else (F.get? n).bind Node.parent
  rw [graft, get?_rewire]
  by_cases hn : n = c
  · obtain ⟨node, hnode⟩ := contains_iff.1 hc
    simp [hn, hnode]
  · simp only [hn, if_false]
    cases F.get? n <;> simp

theorem childrenOf_graft {p : NodeId} (i : Nat) (c : NodeId) (hp : F.contains p = true) (n : NodeId) :
    (F.graft p i c).childrenOf n
      = if n = p then (F.childrenOf n).insertIdx i c else F.childrenOf n := by
  unfold childrenOf graft
  rw [get?_rewire]
  by_cases hn : n = p
  · obtain ⟨node, hnode⟩ := contains_iff.1 hp
    simp [hn, hnode]
  · simp only [hn, if_false]
    cases F.get? n <;> simp

theorem link_of_link_graft {p c : NodeId} {i : Nat} (hc : F.contains c = true) {q n : NodeId}
    (h : (F.graft p i c).Link q n) : n = c ∧ q = p ∨ n ≠ c ∧ F.Link q n := by
  unfold Link at h ⊢
  rw [parentOf_graft i hc] at h
  split at h
  · rename_i hn
    exact .inl ⟨hn, (Option.some.inj h).symm⟩
  · rename_i hn
    exact .inr ⟨hn, h⟩

/-- A climb that does not meet `c` goes on as before. -/
theorem WellFormed.acc_graft (hF : F.WellFormed) {p c : NodeId} (i : Nat) (hc : F.contains c = true) {n : NodeId}
    (hn : ¬ F.Ancestor c n) : Acc (F.graft p i c).Link n := by
  induction n using hF.wellFounded.induction with
  | _ n ih =>
    apply Acc.intro n
    intro q hlink
    rcases link_of_link_graft hc hlink with ⟨rfl, -⟩ | ⟨-, hold⟩
    · exact absurd (ancestor_refl n) hn
    · exact ih q hold fun hcq => hn (hcq.trans (ancestor_of_parentOf hold))

/-- After grafting every climb still ends: one that meets `c` goes on from `p`, whose climb avoids `c`. -/
theorem WellFormed.wellFounded_graft (hF : F.WellFormed) {p c : NodeId} (i : Nat)
    (hc : F.contains c = true) (hup : ¬ F.Ancestor c p) : WellFounded (F.graft p i c).Link := by
  constructor
  intro n
  -- the induction is along the old links, which reach `c` before they reach anything that is new
  induction n using hF.wellFounded.induction with
  | _ n ih =>
    apply Acc.intro n
    intro q hlink
    rcases link_of_link_graft hc hlink with ⟨-, rfl⟩ | ⟨-, hold⟩
    · exact hF.acc_graft i hc hup
    · exact ih q hold

/-- **Grafting a root keeps a forest well-formed** unless the new parent lies below it. -/
theorem WellFormed.graft (hF : F.WellFormed) {p c : NodeId} {i : Nat} (hp : F.contains p = true)
    (hc : F.contains c = true) (hroot : F.parentOf c = none) (hup : ¬ F.Ancestor c p)
    (hi : i ≤ (F.childrenOf p).length) : (F.graft p i c).WellFormed where
  sound := hF.sound.mapNamed _
  mem_childrenOf_iff q n := by
    rw [childrenOf_graft i c hp, parentOf_graft i hc]
    by_cases hq : q = p
    · -- the new parent lists its old children and `c`
      subst hq
      rw [if_pos rfl, List.mem_insertIdx hi, hF.mem_childrenOf_iff]
      by_cases hn : n = c <;> simp [hn]
    · -- the others list what they listed, and `c` was on no list
      rw [if_neg hq, hF.mem_childrenOf_iff]
      by_cases hn : n = c
      · simp [hn, hroot, Ne.symm hq]
      · simp [hn]
  nodup_childrenOf q := by
    rw [childrenOf_graft i c hp]
    by_cases hq : q = p
    · subst hq
      have hnew : c ∉ F.childrenOf q := by
        rw [hF.mem_childrenOf_iff, hroot]
        simp
      rw [if_pos rfl]
      exact (List.perm_insertIdx c (F.childrenOf q) hi).nodup_iff.2
        (List.nodup_cons.2 ⟨hnew, hF.nodup_childrenOf q⟩)
    · rw [if_neg hq]
      exact hF.nodup_childrenOf q
  wellFounded := hF.wellFounded_graft i hc hup

end Grove.Forest
