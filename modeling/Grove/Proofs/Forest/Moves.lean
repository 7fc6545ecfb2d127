import Grove.Proofs.Forest.Kin
import Grove.Proofs.Forest.Relinked
import Grove.Proofs.Forest.Runs
import Grove.Proofs.Forest.Subtree

/-!
# `Proofs.Forest.Moves` — moving a node, and moving it back

A *move* gives a node another parent, or none. Whatever the edit by which it comes about, the node's own parent, the
list it leaves and the list it enters are all that changes (`Moved`): every other node has the links it had, all
nodes are there with their values, and what hangs from the node goes with it.

Placing a node is such a move unless one of four checks fails, and adding it is placing it at the end
(`placing_outcome`). A move is undone by the opposite one (`moves_undone`), up to the count of structural writes. This
rests on two laws: cutting undoes grafting (`cut_graft`), and grafting a node at the position from which it was cut
undoes cutting (`WellFormed.graft_cut`). That the way back is open is seen from the ancestors: a move leaves the nodes
below the one that is moved as they are (`ancestor_of_parentOf_eq`), so its old parent is not among them afterwards.
-/

namespace Grove.Forest

variable {α : Type} {F G : Forest α} {p c : NodeId}

open Edit

/-- The children of `p` other than `c`, from left to right. -/
def others (F : Forest α) (p c : NodeId) : List NodeId :=
  (F.childrenOf p).filter (· != c)

theorem WellFormed.others_eq (hF : F.WellFormed) (p c : NodeId) : F.others p c = (F.childrenOf p).erase c :=
  ((hF.nodup_childrenOf p).erase_eq_filter c).symm

/-! ## What a move changes -/

/-- `G` is `F` after one structural write by which `c` has got the parent `target`, or none. Where it stands among
    the children of `target` is left open. -/
structure Moved (F : Forest α) (c : NodeId) (target : Option NodeId) (G : Forest α) : Prop where
  parentOf_moved : G.parentOf c = target
  parentOf_other : ∀ n, n ≠ c → G.parentOf n = F.parentOf n
  childrenOf_source : ∀ q, F.parentOf c = some q → target ≠ some q → G.childrenOf q = F.others q c
  childrenOf_other : ∀ n, F.parentOf c ≠ some n → target ≠ some n → G.childrenOf n = F.childrenOf n
  value_eq : ∀ n, (G.get? n).map Node.value = (F.get? n).map Node.value
  contains_eq : ∀ n, G.contains n = F.contains n
  size_eq : G.size = F.size
  shape_eq : G.shape c = F.shape c
  subtree_eq : G.subtree c = F.subtree c
  generation_eq : G.generation = F.generation + 1

/-- Where the children of all nodes below `c` are the same, and the values too, so is the subtree. -/
theorem WellFormed.subtree_congr (hF : F.WellFormed) (hG : G.WellFormed) (h : Relinked F G)
    (hc : F.contains c = true) (hchildren : ∀ x, F.Ancestor c x → G.childrenOf x = F.childrenOf x) :
    G.shape c = F.shape c ∧ G.subtree c = F.subtree c := by
  obtain ⟨node, -⟩ := contains_iff.1 hc
  have : Inhabited α := ⟨node.value⟩
  have hshape : G.shape c = F.shape c := by
    apply hF.shape_congr hG hc _ hchildren
    intro x hx
    rw [h.contains_eq]
    exact contains_of_ancestor hx hc
  have hvalues : G.valueOf = F.valueOf := by
    funext n
    rw [valueOf, valueOf, h.value_eq]
  refine ⟨hshape, ?_⟩
  rw [hF.subtree_eq hc, hG.subtree_eq (by rwa [h.contains_eq]), treeOf, treeOf, hshape, hvalues]

/-- Only the parent of a node lists it. -/
theorem WellFormed.erase_of_parentOf_ne (hF : F.WellFormed) {n : NodeId} (hn : F.parentOf c ≠ some n) :
    (F.childrenOf n).erase c = F.childrenOf n :=
  List.erase_of_not_mem fun hlisted => hn ((hF.mem_childrenOf_iff n c).1 hlisted)

/-- What makes a move: the parent of `c` is the new one, `c` is off the list it was on, and the new parent is not in the
    subtree that is moved. -/
theorem WellFormed.moved_of_links (hF : F.WellFormed) (hG : G.WellFormed) (hlinks : Relinked F G)
    (hc : F.contains c = true) {target : Option NodeId} (hup : ∀ q, target = some q → ¬ F.Ancestor c q)
    (hparent : ∀ n, G.parentOf n = if n = c then target else F.parentOf n)
    (hchildren : ∀ n, target ≠ some n → G.childrenOf n = (F.childrenOf n).erase c)
    (hgeneration : G.generation = F.generation + 1) : Moved F c target G := by
  have hbelow : ∀ x, F.Ancestor c x → G.childrenOf x = F.childrenOf x := by
    intro x hx
    rw [hchildren x fun htarget => hup x htarget hx, hF.erase_of_parentOf_ne]
    exact fun hlink => hF.not_ancestor_parent hlink hx
  obtain ⟨hshape, hsubtree⟩ := hF.subtree_congr hG hlinks hc hbelow
  refine ⟨?_, ?_, ?_, ?_, hlinks.value_eq, hlinks.contains_eq, hlinks.size_eq, hshape, hsubtree, hgeneration⟩
  · rw [hparent, if_pos rfl]
  · intro n hn
    rw [hparent, if_neg hn]
  · intro q _ hq
    rw [hchildren q hq, hF.others_eq]
  · intro n hn htarget
    rw [hchildren n htarget, hF.erase_of_parentOf_ne hn]

/-- **Cutting moves a node to the roots.** -/
theorem WellFormed.moved_cut (hF : F.WellFormed) (hc : F.contains c = true) : Moved F c none (F.cut c).bumped := by
  refine hF.moved_of_links (hF.cut c).bumped (Relinked.cut c F).bumped hc nofun ?_ ?_ rfl
  · intro n
    rw [parentOf_bumped, parentOf_cut]
  · intro n _
    rw [childrenOf_bumped, childrenOf_cut]

/-- **Cutting and grafting moves a node under another parent.** -/
theorem WellFormed.moved_graft (hF : F.WellFormed) (hp : F.contains p = true) (hc : F.contains c = true)
    (hup : ¬ F.Ancestor c p) {i : Nat} (hi : i ≤ ((F.childrenOf p).erase c).length) :
    Moved F c (some p) ((F.cut c).graft p i c).bumped := by
  have hG : ((F.cut c).graft p i c).bumped.WellFormed := (Effect.moved hp hc hup hi).wellFormed hF
  have hlinks : Relinked F ((F.cut c).graft p i c).bumped :=
    ((Relinked.cut c F).trans (Relinked.graft p i c _)).bumped
  refine hF.moved_of_links hG hlinks hc ?_ ?_ ?_ rfl
  · rintro q ⟨⟩
    exact hup
  · intro n
    rw [parentOf_bumped, parentOf_graft i (by simpa using hc), parentOf_cut]
    split <;> rfl
  · intro n hn
    rw [childrenOf_bumped, childrenOf_graft i c (by simpa using hp), if_neg fun heq => hn (congrArg some heq.symm),
      childrenOf_cut]

/-- The list that a grafted node enters. -/
theorem WellFormed.childrenOf_graft_cut (hF : F.WellFormed) (hp : F.contains p = true) (i : Nat) :
    ((F.cut c).graft p i c).bumped.childrenOf p = (F.others p c).insertIdx i c := by
  rw [childrenOf_bumped, childrenOf_graft i c (by simpa using hp), if_pos rfl, childrenOf_cut, hF.others_eq]

/-! ## Placing -/

/-- Why `c` cannot be placed under `p` at position `i`: the first of the checks that fails. -/
inductive PlacingFault (F : Forest α) (p : NodeId) (i : Nat) (c : NodeId) : TreeError → Prop where
  | parentNotFound (hp : F.contains p = false) : PlacingFault F p i c (.nodeNotFound p)
  | childNotFound (hp : F.contains p = true) (hc : F.contains c = false) : PlacingFault F p i c (.nodeNotFound c)
  | cycle (hp : F.contains p = true) (hc : F.contains c = true) (hup : F.Ancestor c p) :
      PlacingFault F p i c (.cycleDetected p c)
  | outOfRange (hp : F.contains p = true) (hc : F.contains c = true) (hup : ¬ F.Ancestor c p)
      (hi : (F.others p c).length < i) : PlacingFault F p i c (.outOfRange i (F.others p c).length)

/-- What is left if nothing is at fault. -/
theorem fits_of_not_fault {i : Nat} (h : ∀ error, ¬ PlacingFault F p i c error) :
    F.contains p = true ∧ F.contains c = true ∧ ¬ F.Ancestor c p ∧ i ≤ (F.others p c).length := by
  have hp : F.contains p = true := by
    rw [← Bool.not_eq_false]
    exact fun hp => h _ (.parentNotFound hp)
  have hc : F.contains c = true := by
    rw [← Bool.not_eq_false]
    exact fun hc => h _ (.childNotFound hp hc)
  have hup : ¬ F.Ancestor c p := fun hup => h _ (.cycle hp hc hup)
  exact ⟨hp, hc, hup, Nat.not_lt.1 fun hi => h _ (.outOfRange hp hc hup hi)⟩

namespace WellFormed

theorem insert_of_fault (hF : F.WellFormed) {i : Nat} {error : TreeError} (h : PlacingFault F p i c error) :
    insert p i c F = .error (.tree error) F := by
  rw [hF.insert_eq, ← hF.others_eq]
  cases h with
  | parentNotFound hp => rw [if_pos hp]
  | childNotFound hp hc => rw [if_neg (by simp [hp]), if_pos hc]
  | cycle hp hc hup =>
    rw [← hF.mem_chain_iff hp] at hup
    rw [if_neg (by simp [hp]), if_neg (by simp [hc]), if_pos hup]
  | outOfRange hp hc hup hi =>
    rw [← hF.mem_chain_iff hp] at hup
    rw [if_neg (by simp [hp]), if_neg (by simp [hc]), if_neg hup, if_pos hi]

theorem insert_of_fits (hF : F.WellFormed) (hp : F.contains p = true) (hc : F.contains c = true)
    (hup : ¬ F.Ancestor c p) {i : Nat} (hi : i ≤ (F.others p c).length) :
    insert p i c F = .ok () ((F.cut c).graft p i c).bumped := by
  rw [← hF.mem_chain_iff hp] at hup
  rw [hF.others_eq] at hi
  rw [hF.insert_eq, if_neg (by simp [hp]), if_neg (by simp [hc]), if_neg hup, if_neg (Nat.not_lt.2 hi)]

/-- Placing fails with a fault and with nothing else. -/
theorem fault_of_insert_eq_error (hF : F.WellFormed) {i : Nat} {failure : Failure}
    (h : insert p i c F = .error failure G) : ∃ error, PlacingFault F p i c error ∧ failure = .tree error := by
  by_cases hfault : ∃ error, PlacingFault F p i c error
  · obtain ⟨error, hfault⟩ := hfault
    rw [hF.insert_of_fault hfault] at h
    cases h
    exact ⟨error, hfault, rfl⟩
  · obtain ⟨hp, hc, hup, hi⟩ := fits_of_not_fault (not_exists.1 hfault)
    rw [hF.insert_of_fits hp hc hup hi] at h
    cases h

/-- What was placed did fit, and the forest that came out is known. -/
theorem fits_of_insert_eq_ok (hF : F.WellFormed) {i : Nat} (h : insert p i c F = .ok () G) :
    (F.contains p = true ∧ F.contains c = true ∧ ¬ F.Ancestor c p ∧ i ≤ (F.others p c).length) ∧
      G = ((F.cut c).graft p i c).bumped := by
  have hnone : ∀ error, ¬ PlacingFault F p i c error := by
    intro error hfault
    rw [hF.insert_of_fault hfault] at h
    cases h
  obtain ⟨hp, hc, hup, hi⟩ := fits_of_not_fault hnone
  rw [hF.insert_of_fits hp hc hup hi] at h
  cases h
  exact ⟨⟨hp, hc, hup, hi⟩, rfl⟩

/-- Adding is placing at the end, also where it fails. -/
theorem add_eq_insert (hF : F.WellFormed) (p c : NodeId) : add p c F = insert p (F.others p c).length c F := by
  rw [hF.add_eq, hF.insert_eq, ← hF.others_eq, if_neg (Nat.lt_irrefl (F.others p c).length)]

theorem moved_of_insert (hF : F.WellFormed) {i : Nat} (h : insert p i c F = .ok () G) :
    Moved F c (some p) G ∧ G.childrenOf p = (F.others p c).insertIdx i c := by
  obtain ⟨⟨hp, hc, hup, hi⟩, rfl⟩ := hF.fits_of_insert_eq_ok h
  rw [hF.others_eq] at hi
  exact ⟨hF.moved_graft hp hc hup hi, hF.childrenOf_graft_cut hp i⟩

end WellFormed

/-- **Placing and adding.** Placing a node under a parent is refused with the first fault there is, and the forest stays
    as it is. If there is none, the node comes to stand at the given position among the other children, and nothing
    but its place changes. Adding is placing behind the other children, so its position is never out of range. -/
theorem placing_outcome (hF : F.Reachable) (p c : NodeId) :
    (∀ i error, PlacingFault F p i c error → insert p i c F = .error (.tree error) F) ∧
    (∀ i, (∀ error, ¬ PlacingFault F p i c error) →
      ∃ G, insert p i c F = .ok () G ∧ Moved F c (some p) G ∧ G.childrenOf p = (F.others p c).insertIdx i c) ∧
    add p c F = insert p (F.others p c).length c F ∧
    (∀ index len G, add p c F ≠ .error (.tree (.outOfRange index len)) G) ∧
    ∀ G, add p c F = .ok () G → Moved F c (some p) G ∧ G.childrenOf p = F.others p c ++ [c] := by
  have hF := hF.wellFormed
  have hadd := hF.add_eq_insert p c
  refine ⟨fun i error => hF.insert_of_fault, ?_, hadd, ?_, ?_⟩
  · intro i hnone
    obtain ⟨hp, hc, hup, hi⟩ := fits_of_not_fault hnone
    have hplaced := hF.insert_of_fits hp hc hup hi
    exact ⟨_, hplaced, hF.moved_of_insert hplaced⟩
  · intro index len G hfail
    rw [hadd] at hfail
    obtain ⟨error, hfault, herror⟩ := hF.fault_of_insert_eq_error hfail
    cases herror
    cases hfault with
    | outOfRange _ _ _ hi => exact Nat.lt_irrefl _ hi
  · intro G hplaced
    rw [hadd] at hplaced
    have hmoved := hF.moved_of_insert hplaced
    rwa [List.insertIdx_length_self] at hmoved

/-- On a node with two children: the first one moves behind the second, which is as far as it can go, and its parent
    cannot go under it. -/
theorem placing_outcome_of_fork :
    let F := (empty : Forest Nat).afterAll [.create 7, .create 8, .create 9, .add ⟨0, 0⟩ ⟨1, 0⟩, .add ⟨0, 0⟩ ⟨2, 0⟩]
    F.Reachable ∧
      (∃ G, insert ⟨0, 0⟩ 1 ⟨1, 0⟩ F = .ok () G ∧ G.childrenOf ⟨0, 0⟩ = [⟨2, 0⟩, ⟨1, 0⟩]) ∧
      insert ⟨0, 0⟩ 2 ⟨1, 0⟩ F = .error (.tree (.outOfRange 2 1)) F ∧
      add ⟨1, 0⟩ ⟨0, 0⟩ F = .error (.tree (.cycleDetected ⟨1, 0⟩ ⟨0, 0⟩)) F := by
  intro F
  have hF : F.Reachable := ⟨_, rfl⟩
  have hchild : F.parentOf ⟨1, 0⟩ = some ⟨0, 0⟩ := rfl
  have hup : ¬ F.Ancestor ⟨1, 0⟩ ⟨0, 0⟩ := hF.wellFormed.not_ancestor_parent hchild
  obtain ⟨hfault, hplaced, -⟩ := placing_outcome hF ⟨0, 0⟩ ⟨1, 0⟩
  obtain ⟨hbelow, -, hadd, -⟩ := placing_outcome hF ⟨1, 0⟩ ⟨0, 0⟩
  refine ⟨hF, ?_, hfault 2 _ (.outOfRange rfl rfl hup (by decide)), ?_⟩
  · obtain ⟨G, hG, -, hlist⟩ := hplaced 1 <| by
      rintro error (hp | ⟨-, hc⟩ | ⟨-, -, hcycle⟩ | ⟨-, -, -, hi⟩)
      · exact absurd hp (by decide)
      · exact absurd hc (by decide)
      · exact hup hcycle
      · exact absurd hi (by decide)
    exact ⟨G, hG, hlist⟩
  · rw [hadd]
    exact hbelow _ _ (.cycle rfl rfl (ancestor_of_parentOf hchild))

/-! ## Taking -/

namespace WellFormed

theorem removeAt_of_getElem? (hF : F.WellFormed) {i : Nat} (hi : (F.childrenOf p)[i]? = some c) :
    removeAt p i F = .ok c (F.cut c).bumped := by
  have hp := contains_of_getElem? hi
  rw [hF.removeAt_eq, if_neg (by simp [hp]), hi]

theorem removeChild_of_mem (hF : F.WellFormed) (hlisted : c ∈ F.childrenOf p) :
    removeChild p c F = .ok () (F.cut c).bumped := by
  have hp := contains_of_mem_childrenOf hlisted
  have hc := hF.contains_child hlisted
  rw [hF.removeChild_eq, if_neg (by simp [hc]), if_neg (by simp [hp]), if_pos hlisted]

theorem detach_of_parentOf (hF : F.WellFormed) (hlink : F.parentOf c = some p) :
    detach c F = .ok () (F.cut c).bumped := by
  have hc := contains_of_parentOf hlink
  rw [hF.detach_eq, if_neg (by simp [hc]), if_neg (by simp [hlink])]

/-- Whatever is taken by position stood there. -/
theorem getElem?_of_removeAt (hF : F.WellFormed) {i : Nat} (h : removeAt p i F = .ok c G) :
    (F.childrenOf p)[i]? = some c := by
  rw [hF.removeAt_eq] at h
  split at h
  · cases h
  · split at h
    · cases h
    · rename_i d hd
      cases h
      exact hd

end WellFormed

/-! ## Moving back -/

theorem erase_insertIdx {l : List NodeId} (hc : c ∉ l) (i : Nat) : (l.insertIdx i c).erase c = l := by
  induction l generalizing i with
  | nil => cases i <;> simp
  | cons x l ih =>
    obtain ⟨hx, hl⟩ := not_or.1 (mt List.mem_cons.2 hc)
    cases i with
    | zero => simp
    | succ i => rw [List.insertIdx_succ_cons, List.erase_cons_tail (by simpa using Ne.symm hx), ih hl]

theorem insertIdx_erase {l : List NodeId} (hl : l.Nodup) {i : Nat} (hi : l[i]? = some c) :
    (l.erase c).insertIdx i c = l := by
  obtain ⟨hlt, hget⟩ := List.getElem?_eq_some_iff.1 hi
  rw [← eraseIdx_of_nodup hl hi, ← hget, List.insertIdx_eraseIdx_getElem]

/-- **Cutting undoes grafting.** -/
theorem WellFormed.cut_graft (hF : F.WellFormed) (hroot : F.parentOf c = none) (p : NodeId) (i : Nat) :
    (F.graft p i c).cut c = F := by
  rw [Forest.graft, Forest.cut, rewire_rewire]
  apply rewire_eq_self
  intro n node hnode
  have hlist : c ∉ node.children := hF.not_mem_children hnode (by simp [hroot])
  have hchildren : (if n = p then node.children.insertIdx i c else node.children).erase c = node.children := by
    split
    · exact erase_insertIdx hlist i
    · exact List.erase_of_not_mem hlist
  have hparent : (if n = c then none else if n = c then some p else node.parent) = node.parent := by
    split
    · rename_i hn
      rw [← parentOf_of_get? hnode, hn, hroot]
    · rfl
  rw [hchildren, hparent]

/-- **Grafting at the old position undoes cutting.** -/
theorem WellFormed.graft_cut (hF : F.WellFormed) {q : NodeId} {j : Nat} (hj : (F.childrenOf q)[j]? = some c) :
    (F.cut c).graft q j c = F := by
  have hlink := hF.parentOf_of_getElem? hj
  rw [Forest.graft, Forest.cut, rewire_rewire]
  apply rewire_eq_self
  intro n node hnode
  have hchildren : (if n = q then (node.children.erase c).insertIdx j c else node.children.erase c)
      = node.children := by
    split
    · rename_i hn
      rw [← childrenOf_of_get? hnode, hn]
      exact insertIdx_erase (hF.nodup_childrenOf q) hj
    · rename_i hn
      refine List.erase_of_not_mem (hF.not_mem_children hnode ?_)
      rw [hlink, ne_eq, Option.some.injEq]
      exact Ne.symm hn
  have hparent : (if n = c then some q else if n = c then none else node.parent) = node.parent := by
    split
    · rename_i hn
      rw [← parentOf_of_get? hnode, hn, hlink]
    · rfl
  rw [hchildren, hparent]

/-- Where no parent but that of `c` is another one, no node has come to lie below `c`. -/
theorem ancestor_of_parentOf_eq (hparent : ∀ n, n ≠ c → G.parentOf n = F.parentOf n) {n : NodeId}
    (hn : G.Ancestor c n) : F.Ancestor c n := by
  induction hn with
  | refl => exact ancestor_refl c
  | @tail m n _ hlink ih =>
    by_cases hnc : n = c
    · rw [hnc]
      exact ancestor_refl c
    · exact ih.trans (ancestor_of_parentOf ((hparent n hnc).symm.trans hlink))

namespace WellFormed

/-- If `F` and `G` are alike once `c` is cut, then placing `c` in `G` where it stands in `F` leads back to `F`. -/
theorem insert_back (hF : F.WellFormed) (hG : G.WellFormed) (halike : G.cut c = (F.cut c).bumped) {q : NodeId}
    {j : Nat} (hj : (F.childrenOf q)[j]? = some c) : insert q j c G = .ok () F.bumped.bumped := by
  have hlisted := List.mem_of_getElem? hj
  have hlink := (hF.mem_childrenOf_iff q c).1 hlisted
  have hlive : ∀ n, G.contains n = F.contains n := by
    intro n
    rw [← contains_cut c n G, halike, contains_bumped, contains_cut]
  have hparent : ∀ n, n ≠ c → G.parentOf n = F.parentOf n := by
    intro n hn
    have hcut := parentOf_cut c n G
    rw [halike, parentOf_bumped, parentOf_cut, if_neg hn, if_neg hn] at hcut
    exact hcut.symm
  have hothers : G.others q c = (F.childrenOf q).erase c := by
    rw [hG.others_eq, ← childrenOf_cut, halike, childrenOf_bumped, childrenOf_cut]
  have hup : ¬ G.Ancestor c q := fun hbelow => hF.not_ancestor_parent hlink (ancestor_of_parentOf_eq hparent hbelow)
  have hroom : j ≤ (G.others q c).length := by
    have hlt := (List.getElem?_eq_some_iff.1 hj).1
    rw [hothers, List.length_erase_of_mem hlisted]
    omega
  have hq : G.contains q = true := (hlive q).trans (hF.contains_parent hlink)
  have hc : G.contains c = true := (hlive c).trans (contains_of_parentOf hlink)
  rw [hG.insert_of_fits hq hc hup hroom, halike]
  show EStateM.Result.ok () ((F.cut c).graft q j c).bumped.bumped = .ok () F.bumped.bumped
  rw [hF.graft_cut hj]

/-- If `F` and `G` are alike once `c` is cut and `c` is a root of `F`, then taking it from its parent in `G` leads back
    to `F`. -/
theorem remove_back (hF : F.WellFormed) (hG : G.WellFormed) (halike : G.cut c = (F.cut c).bumped)
    (hroot : F.parentOf c = none) (hp : G.parentOf c = some p) :
    removeChild p c G = .ok () F.bumped.bumped ∧ detach c G = .ok () F.bumped.bumped := by
  have hback : (G.cut c).bumped = F.bumped.bumped := by rw [halike, hF.cut_of_root hroot]
  rw [hG.removeChild_of_mem ((hG.mem_childrenOf_iff p c).2 hp), hG.detach_of_parentOf hp, hback]
  exact ⟨rfl, rfl⟩

/-- A node that is placed is alike before and after once it is cut. -/
theorem cut_of_insert (hF : F.WellFormed) {i : Nat} (h : insert p i c F = .ok () G) :
    G.WellFormed ∧ G.cut c = (F.cut c).bumped ∧ G.parentOf c = some p := by
  obtain ⟨⟨hp, hc, hup, hi⟩, rfl⟩ := hF.fits_of_insert_eq_ok h
  rw [hF.others_eq] at hi
  refine ⟨(Effect.moved hp hc hup hi).wellFormed hF, ?_, (hF.moved_graft hp hc hup hi).parentOf_moved⟩
  have hroot : (F.cut c).parentOf c = none := by rw [parentOf_cut, if_pos rfl]
  show (((F.cut c).graft p i c).cut c).bumped = (F.cut c).bumped
  rw [(hF.cut c).cut_graft hroot]

end WellFormed

theorem parentOf_of_parent {n : NodeId} {above : Option NodeId} (h : F.parent n = .ok above) :
    F.parentOf n = above := by
  unfold parent linked at h
  split at h
  · rename_i node hnode
    rw [parentOf_of_get? hnode]
    exact Except.ok.inj h
  · cases h

theorem getElem?_of_child {n : NodeId} {i : Nat} (h : F.child n i = .ok c) : (F.childrenOf n)[i]? = some c := by
  by_cases hn : F.contains n = true
  · rw [child_eq hn] at h
    split at h
    · rename_i d hd
      rwa [← Except.ok.inj h]
    · cases h
  · rw [Bool.not_eq_true, ← get?_eq_none_iff] at hn
    simp [child, children, linked, hn, bind, Except.bind] at h

/-- A node that is taken, in any of the three ways, is cut. -/
theorem WellFormed.cut_of_taken (hF : F.WellFormed) {i : Nat}
    (h : removeAt p i F = .ok c G ∨ F.child p i = .ok c ∧ (removeChild p c F = .ok () G ∨ detach c F = .ok () G)) :
    (F.childrenOf p)[i]? = some c ∧ G = (F.cut c).bumped := by
  have hi : (F.childrenOf p)[i]? = some c := by
    rcases h with htaken | ⟨hchild, -⟩
    · exact hF.getElem?_of_removeAt htaken
    · exact getElem?_of_child hchild
  have hlisted := List.mem_of_getElem? hi
  refine ⟨hi, ?_⟩
  rcases h with htaken | ⟨-, htaken | htaken⟩
  · rw [hF.removeAt_of_getElem? hi] at htaken
    cases htaken
    rfl
  · rw [hF.removeChild_of_mem hlisted] at htaken
    cases htaken
    rfl
  · rw [hF.detach_of_parentOf ((hF.mem_childrenOf_iff p c).1 hlisted)] at htaken
    cases htaken
    rfl

/-- **Every move can be undone.** A node that has been placed, or added, goes back to where it stood by being placed
    there, or to the roots by being taken from its new parent; one that has been taken goes back by being placed at the
    position it had. The way back is never refused, and what it leads to is the forest as it was before the move, up to
    the two structural writes that have been counted. -/
theorem moves_undone (hF : F.Reachable) (c : NodeId) :
    let restored : Forest α := { F with generation := F.generation + 2 }
    (∀ p G, (∃ i, insert p i c F = .ok () G) ∨ add p c F = .ok () G →
      (∀ q j, F.child q j = .ok c → insert q j c G = .ok () restored) ∧
      (F.parent c = .ok none → removeChild p c G = .ok () restored ∧ detach c G = .ok () restored)) ∧
    ∀ p i G,
      removeAt p i F = .ok c G ∨ F.child p i = .ok c ∧ (removeChild p c F = .ok () G ∨ detach c F = .ok () G) →
      insert p i c G = .ok () restored := by
  intro restored
  have hF := hF.wellFormed
  have hrestored : restored = F.bumped.bumped := (bumped_bumped F).symm
  rw [hrestored]
  constructor
  · intro p G hplaced
    obtain ⟨i, hinsert⟩ : ∃ i, insert p i c F = .ok () G := by
      rcases hplaced with hinsert | hadd
      · exact hinsert
      · exact ⟨_, (hF.add_eq_insert p c).symm.trans hadd⟩
    obtain ⟨hG, halike, hparent⟩ := hF.cut_of_insert hinsert
    refine ⟨fun q j hj => hF.insert_back hG halike (getElem?_of_child hj), fun hroot => ?_⟩
    exact hF.remove_back hG halike (parentOf_of_parent hroot) hparent
  · intro p i G htaken
    obtain ⟨hi, rfl⟩ := hF.cut_of_taken htaken
    have hroot : (F.cut c).bumped.parentOf c = none := by rw [parentOf_bumped, parentOf_cut, if_pos rfl]
    exact hF.insert_back (hF.cut c).bumped ((hF.cut c).bumped.cut_of_root hroot) hi

/-- On a chain of three nodes: the lowest goes up to the top, and back. -/
theorem moves_undone_of_chain :
    let F := (empty : Forest Nat).afterAll
      [.create 7, .create 8, .create 9, .add ⟨0, 0⟩ ⟨1, 0⟩, .add ⟨1, 0⟩ ⟨2, 0⟩]
    let G := F.after (.insert ⟨0, 0⟩ 0 ⟨2, 0⟩)
    F.Reachable ∧ insert ⟨0, 0⟩ 0 ⟨2, 0⟩ F = .ok () G ∧ F.child ⟨1, 0⟩ 0 = .ok ⟨2, 0⟩ ∧
      insert ⟨1, 0⟩ 0 ⟨2, 0⟩ G = .ok () { F with generation := 4 } := by
  intro F G
  have hF : F.Reachable := ⟨_, rfl⟩
  have hplaced : insert ⟨0, 0⟩ 0 ⟨2, 0⟩ F = .ok () G := rfl
  have hchild : F.child ⟨1, 0⟩ 0 = .ok ⟨2, 0⟩ := rfl
  exact ⟨hF, hplaced, hchild, ((moves_undone hF ⟨2, 0⟩).1 ⟨0, 0⟩ G (.inl ⟨0, hplaced⟩)).1 ⟨1, 0⟩ 0 hchild⟩

end Grove.Forest
