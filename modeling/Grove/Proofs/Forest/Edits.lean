import Grove.Forest.Edit
import Grove.Proofs.Forest.Rewire
import Mathlib.Data.List.Nodup

/-!
# `Proofs.Forest.Edits` — what the edits do

One equation for each edit says what it does to a well-formed forest: which check fails first, with the forest
as it was, or which forest comes out. Moving a node is `cut` and then `graft`, taking one away is `cut`, and
each of them counts one structural write (`bumped`). A walk through an edit's own steps ends here: what is
proved about edits elsewhere starts from these equations.
-/

namespace Grove.Forest

variable {α β γ : Type} {F G : Forest α}

open Edit

/-! ## Sequences of edits -/

namespace Edit

theorem bind_of_ok {m : Edit α β} {k : β → Edit α γ} {b : β} (h : m F = .ok b G) :
    (m >>= k) F = k b G := by
  simp only [bind, EStateM.bind, h]

theorem bind_of_error {m : Edit α β} {k : β → Edit α γ} {failure : Failure} (h : m F = .error failure G) :
    (m >>= k) F = .error failure G := by
  simp only [bind, EStateM.bind, h]

theorem pure_eq (b : β) (F : Forest α) : (pure b : Edit α β) F = .ok b F := rfl

theorem throw_eq (failure : Failure) (F : Forest α) : (throw failure : Edit α β) F = .error failure F := rfl

theorem bump_eq (F : Forest α) : bump F = .ok () F.bumped := rfl

/-- An edit that begins by looking a node up is refused if there is none, and may rely on it otherwise. -/
theorem lookup_bind_eq {n : NodeId} {k : Node α → Edit α β} {r : EStateM.Result Failure (Forest α) β}
    (h : ∀ node, F.get? n = some node → k node F = r) :
    (read (·.lookup n) >>= k) F = if F.contains n = false then .error (.tree (.nodeNotFound n)) F else r := by
  by_cases hn : F.contains n = false
  · rw [if_pos hn]
    exact bind_of_error (read_of_error (lookup_of_not_contains hn))
  · rw [if_neg hn]
    rw [Bool.not_eq_false] at hn
    obtain ⟨node, hnode, hlookup⟩ := lookup_of_contains hn
    exact (bind_of_ok (read_of_ok hlookup)).trans (h node hnode)

theorem update_eq {n : NodeId} (f : Node α → Node α) (hn : F.contains n = true) :
    update n f F = .ok () (F.rewire fun m node => if m = n then f node else node) := by
  obtain ⟨node, hnode⟩ := contains_iff.1 hn
  simp only [update, hnode, Arena.modify_eq_mapNamed, rewire]

end Edit

/-! ## Values -/

/-- An edit that changes one node and answers with what it found there. -/
theorem lookup_update_eq (n : NodeId) (f : Node α → Node α) (answer : Node α → β) (F : Forest α) :
    (do
        let node ← read (·.lookup n)
        update n f
        return answer node : Edit α β) F
      = match F.get? n with
        | none => .error (.tree (.nodeNotFound n)) F
        | some node => .ok (answer node) (F.rewire fun m node => if m = n then f node else node) := by
  cases hn : F.get? n with
  | none => rw [bind_of_error (read_of_error (lookup_eq_error_iff.2 ⟨hn, rfl⟩))]
  | some node =>
    rw [bind_of_ok (read_of_ok (lookup_eq_ok_iff.2 hn)), bind_of_ok (update_eq _ (contains_of_get? hn)), pure_eq]

theorem setValue_eq (n : NodeId) (v : α) :
    setValue n v F = match F.get? n with
      | none => .error (.tree (.nodeNotFound n)) F
      | some node => .ok node.value (F.rewire fun m node => if m = n then { node with value := v } else node) :=
  lookup_update_eq n (fun node => { node with value := v }) Node.value F

theorem modifyValue_eq (n : NodeId) (f : α → α) :
    modifyValue n f F = match F.get? n with
      | none => .error (.tree (.nodeNotFound n)) F
      | some node =>
        .ok (f node.value) (F.rewire fun m node => if m = n then { node with value := f node.value } else node) :=
  lookup_update_eq n (fun node => { node with value := f node.value }) (fun node => f node.value) F

/-! ## Placing -/

theorem eraseIdx_of_findIdx? {l : List NodeId} {c : NodeId} {i : Nat} (h : l.findIdx? (· == c) = some i) :
    l.eraseIdx i = l.erase c := by
  have hidx : l.idxOf? c = some i := h
  rw [List.erase_eq_eraseIdx, hidx]

theorem eraseIdx_of_nodup {l : List NodeId} (hl : l.Nodup) {c : NodeId} {i : Nat} (h : l[i]? = some c) :
    l.eraseIdx i = l.erase c := by
  obtain ⟨hi, rfl⟩ := List.getElem?_eq_some_iff.1 h
  exact (hl.erase_getElem i hi).symm

namespace WellFormed

/-- No node but the parent lists `c`. -/
theorem not_mem_children (hF : F.WellFormed) {c n : NodeId} {node : Node α} (hnode : F.get? n = some node)
    (hparent : F.parentOf c ≠ some n) : c ∉ node.children := by
  rwa [← childrenOf_of_get? hnode, hF.mem_childrenOf_iff]

theorem room_eq (hF : F.WellFormed) {p c : NodeId} {target moved : Node α} (hp : F.get? p = some target)
    (hc : F.get? c = some moved) : room p target moved = .ok ((F.childrenOf p).erase c).length := by
  have hmem := hF.mem_childrenOf_iff p c
  rw [childrenOf_of_get? hp, parentOf_of_get? hc] at hmem
  unfold room
  rw [childrenOf_of_get? hp]
  by_cases hparent : moved.parent = some p
  · have hin := hmem.2 hparent
    rw [if_pos hparent, List.length_erase_of_mem hin]
    cases hlist : target.children with
    | nil => simp [hlist] at hin
    | cons => simp
  · rw [if_neg hparent, List.erase_of_not_mem fun hin => hparent (hmem.1 hin)]

/-- No node but its parent lists `c`, so that taking it off the parent's list takes it off every list. -/
theorem rewire_eraseIdx_eq (hF : F.WellFormed) {p c : NodeId} {i : Nat} (hparent : F.parentOf c = some p)
    (hi : (F.childrenOf p).eraseIdx i = (F.childrenOf p).erase c) :
    F.rewire (fun n node => if n = p then { node with children := node.children.eraseIdx i } else node)
      = F.rewire fun _ node => { node with children := node.children.erase c } := by
  apply rewire_congr
  intro n node hnode
  by_cases hn : n = p
  · subst hn
    rw [childrenOf_of_get? hnode] at hi
    rw [if_pos rfl, hi]
  · have hnot : c ∉ node.children := by
      apply hF.not_mem_children hnode
      rw [hparent, ne_eq, Option.some.injEq]
      exact Ne.symm hn
    rw [if_neg hn, List.erase_of_not_mem hnot]

/-- Striking a node that has a parent takes it off every list. -/
theorem strike_eq (hF : F.WellFormed) {p c : NodeId} (hparent : F.parentOf c = some p) :
    strike p c F = .ok () (F.rewire fun _ node => { node with children := node.children.erase c }) := by
  have hp := hF.contains_parent hparent
  have hlisted := (hF.mem_childrenOf_iff p c).2 hparent
  obtain ⟨node, hnode⟩ := contains_iff.1 hp
  rw [childrenOf_of_get? hnode] at hlisted
  unfold strike
  rw [bind_of_ok (read_of_ok (linked_eq_ok_iff.2 hnode))]
  cases hindex : node.children.findIdx? (· == c) with
  | none =>
    rw [List.findIdx?_eq_none_iff] at hindex
    simpa using hindex c hlisted
  | some index =>
    have herase : (F.childrenOf p).eraseIdx index = (F.childrenOf p).erase c := by
      rw [childrenOf_of_get? hnode]
      exact eraseIdx_of_findIdx? hindex
    show update p (fun node => { node with children := node.children.eraseIdx index }) F = _
    rw [update_eq _ hp, hF.rewire_eraseIdx_eq hparent herase]

end WellFormed

theorem enlist_eq {p c : NodeId} {i : Nat} (hp : F.contains p = true) (hi : i ≤ (F.childrenOf p).length) :
    enlist p i c F
      = .ok () (F.rewire fun n node =>
          if n = p then { node with children := node.children.insertIdx i c } else node) := by
  obtain ⟨node, hnode⟩ := contains_iff.1 hp
  rw [childrenOf_of_get? hnode] at hi
  unfold enlist
  rw [bind_of_ok (read_of_ok (linked_eq_ok_iff.2 hnode))]
  simp only [Nat.not_lt.2 hi, if_false]
  exact update_eq _ hp

namespace WellFormed

/-- A root, or a node struck from its parent's list, is grafted by two changes. -/
theorem graft_eq_of_struck {p c : NodeId} {i : Nat} (hp : F.contains p = true) (hc : F.contains c = true)
    (hi : i ≤ ((F.childrenOf p).erase c).length) :
    (do
        enlist p i c
        update c fun node => { node with parent := some p }
        bump : Edit α Unit) (F.rewire fun _ node => { node with children := node.children.erase c })
      = .ok () ((F.cut c).graft p i c).bumped := by
  obtain ⟨target, htarget⟩ := contains_iff.1 hp
  have hlist : (F.rewire fun _ node => { node with children := node.children.erase c }).childrenOf p
      = (F.childrenOf p).erase c := by
    simp [childrenOf, htarget]
  rw [bind_of_ok (enlist_eq (by simpa using hp) (by rw [hlist]; exact hi)),
    bind_of_ok (update_eq _ (by simpa using hc)), bump_eq]
  -- what is left is to compare two changes of one node, which may be `p`, or `c`, or neither
  simp only [rewire_rewire, Forest.cut, Forest.graft]
  congr 2
  apply rewire_congr
  intro n node _
  by_cases hnp : n = p
  · by_cases hnc : n = c
    · simp only [if_pos hnp, if_pos hnc]
    · simp only [if_pos hnp, if_neg hnc]
  · by_cases hnc : n = c
    · simp only [if_neg hnp, if_pos hnc]
    · simp only [if_neg hnp, if_neg hnc]

/-- Past the checks, a node is struck from its parent's list if it has one, and grafted. -/
theorem place_eq (hF : F.WellFormed) {p c : NodeId} {i : Nat} {moved : Node α} (hp : F.contains p = true)
    (hc : F.get? c = some moved) (hi : i ≤ ((F.childrenOf p).erase c).length) :
    (do
        if let some old := moved.parent then
          strike old c
        enlist p i c
        update c fun node => { node with parent := some p }
        bump : Edit α Unit) F
      = .ok () ((F.cut c).graft p i c).bumped := by
  have hgraft := graft_eq_of_struck hp (contains_of_get? hc) hi
  have hparent := parentOf_of_get? hc
  cases hold : moved.parent with
  | some old => exact (bind_of_ok (hF.strike_eq (hparent.trans hold))).trans hgraft
  | none =>
    -- a root is on no list, so striking it would change nothing
    have hself : F.rewire (fun _ node => { node with children := node.children.erase c }) = F := by
      apply rewire_eq_self
      intro n node hnode
      rw [List.erase_of_not_mem (hF.not_mem_children hnode (by simp [hparent, hold]))]
    rw [hself] at hgraft
    exact hgraft

/-- **Placing a node.** The checks in their order; then the node is cut and grafted in its new place. -/
theorem insert_eq (hF : F.WellFormed) (p c : NodeId) (i : Nat) :
    insert p i c F
      = if F.contains p = false then .error (.tree (.nodeNotFound p)) F
        else if F.contains c = false then .error (.tree (.nodeNotFound c)) F
        else if c ∈ F.chain p then .error (.tree (.cycleDetected p c)) F
        else if ((F.childrenOf p).erase c).length < i then
          .error (.tree (.outOfRange i ((F.childrenOf p).erase c).length)) F
        else .ok () ((F.cut c).graft p i c).bumped := by
  unfold insert
  apply lookup_bind_eq
  intro target htarget
  apply lookup_bind_eq
  intro moved hmoved
  have hp := contains_of_get? htarget
  rw [bind_of_ok (read_of_ok (hF.reaches_eq hp c))]
  by_cases hcycle : c ∈ F.chain p
  · rw [if_pos hcycle, if_pos (decide_eq_true hcycle), bind_of_error (throw_eq _ F)]
  rw [if_neg hcycle, if_neg (by simpa using hcycle)]
  refine (bind_of_ok (read_of_ok (hF.room_eq htarget hmoved))).trans ?_
  by_cases hlen : ((F.childrenOf p).erase c).length < i
  · rw [if_pos hlen, if_pos hlen, bind_of_error (throw_eq _ F)]
  rw [if_neg hlen, if_neg hlen]
  exact hF.place_eq hp hmoved (Nat.not_lt.1 hlen)

/-- Placing a node as the last child is always in range. -/
theorem add_eq (hF : F.WellFormed) (p c : NodeId) :
    add p c F
      = if F.contains p = false then .error (.tree (.nodeNotFound p)) F
        else if F.contains c = false then .error (.tree (.nodeNotFound c)) F
        else if c ∈ F.chain p then .error (.tree (.cycleDetected p c)) F
        else .ok () ((F.cut c).graft p ((F.childrenOf p).erase c).length c).bumped := by
  unfold add
  apply lookup_bind_eq
  intro target htarget
  apply lookup_bind_eq
  intro moved hmoved
  have hp := contains_of_get? htarget
  have hc := contains_of_get? hmoved
  rw [bind_of_ok (read_of_ok (hF.room_eq htarget hmoved)), hF.insert_eq, if_neg (by simp [hp]), if_neg (by simp [hc]),
    if_neg (Nat.lt_irrefl _)]

/-! ## Taking away -/

/-- A node is cut by two changes: its parent's list is shortened, and its parent link goes. -/
theorem rewire_rewire_eq_cut (hF : F.WellFormed) {p c : NodeId} {i : Nat} (hi : (F.childrenOf p)[i]? = some c) :
    ((F.rewire fun n node => if n = p then { node with children := node.children.eraseIdx i } else node).rewire
        fun n node => if n = c then { node with parent := none } else node) = F.cut c := by
  have hparent := hF.parentOf_of_getElem? hi
  rw [hF.rewire_eraseIdx_eq hparent (eraseIdx_of_nodup (hF.nodup_childrenOf p) hi), rewire_rewire]
  apply rewire_congr
  intro n node _
  by_cases hn : n = c
  · simp only [if_pos hn]
  · simp only [if_neg hn]

/-- **Taking a child by position.** The child at `i` is cut. -/
theorem removeAt_eq (hF : F.WellFormed) (p : NodeId) (i : Nat) :
    removeAt p i F
      = if F.contains p = false then .error (.tree (.nodeNotFound p)) F
        else match (F.childrenOf p)[i]? with
          | none => .error (.tree (.outOfRange i (F.childrenOf p).length)) F
          | some c => .ok c (F.cut c).bumped := by
  unfold removeAt
  apply lookup_bind_eq
  intro target htarget
  have hp := contains_of_get? htarget
  have hcut := fun c => hF.rewire_rewire_eq_cut (p := p) (c := c) (i := i)
  rw [childrenOf_of_get? htarget] at hcut ⊢
  cases hindex : target.children[i]? with
  | none => exact throw_eq _ F
  | some c =>
    have hc : F.contains c = true := by
      apply hF.contains_child (p := p)
      rw [childrenOf_of_get? htarget]
      exact List.mem_of_getElem? hindex
    refine (bind_of_ok (update_eq _ hp)).trans ?_
    refine (bind_of_ok (update_eq _ (by simpa using hc))).trans ?_
    refine (bind_of_ok (bump_eq _)).trans ?_
    rw [hcut c hindex]
    exact pure_eq c _

/-- **Taking a child by name.** -/
theorem removeChild_eq (hF : F.WellFormed) (p c : NodeId) :
    removeChild p c F
      = if F.contains c = false then .error (.tree (.nodeNotFound c)) F
        else if F.contains p = false then .error (.tree (.nodeNotFound p)) F
        else if c ∈ F.childrenOf p then .ok () (F.cut c).bumped
        else .error (.tree (.notAChild p c)) F := by
  unfold removeChild
  apply lookup_bind_eq
  intro _ _
  apply lookup_bind_eq
  intro target htarget
  have hp := contains_of_get? htarget
  rw [childrenOf_of_get? htarget]
  cases hindex : target.children.findIdx? (· == c) with
  | none =>
    rw [List.findIdx?_eq_none_iff] at hindex
    have hnot : c ∉ target.children := fun hmem => by simpa using hindex c hmem
    rw [if_neg hnot]
    exact throw_eq _ F
  | some index =>
    obtain ⟨hlt, hfound, -⟩ := List.findIdx?_eq_some_iff_getElem.1 hindex
    have hchild : target.children[index]? = some c := by
      rw [List.getElem?_eq_getElem hlt, beq_iff_eq.1 hfound]
    rw [if_pos (List.mem_of_getElem? hchild)]
    refine (bind_of_ok (b := c) (k := fun _ => pure ()) ?_).trans (pure_eq () _)
    rw [hF.removeAt_eq, if_neg (by simp [hp]), childrenOf_of_get? htarget, hchild]

/-- Taking the first children one after the other, from the right. -/
theorem removeFirst_eq (hF : F.WellFormed) {p : NodeId} (hp : F.contains p = true) (count : Nat)
    (taken : List NodeId) (hcount : count ≤ (F.childrenOf p).length) :
    removeFirst p count taken F
      = .ok ((F.childrenOf p).take count ++ taken) (F.cutAll ((F.childrenOf p).take count)) := by
  induction count generalizing F taken with
  | zero => rfl
  | succ count ih =>
    obtain ⟨c, hc⟩ : ∃ c, (F.childrenOf p)[count]? = some c := ⟨_, List.getElem?_eq_getElem hcount⟩
    have hstep : removeAt p count F = .ok c (F.cut c).bumped := by
      rw [hF.removeAt_eq, if_neg (by simp [hp]), hc]
    -- the child taken is the last of the first ones, so the others keep their places
    have herase : (F.childrenOf p).erase c = (F.childrenOf p).eraseIdx count :=
      (eraseIdx_of_nodup (hF.nodup_childrenOf p) hc).symm
    have htake : ((F.cut c).bumped.childrenOf p).take count = (F.childrenOf p).take count := by
      rw [childrenOf_bumped, childrenOf_cut, herase, List.take_eraseIdx_eq_take_of_le _ _ _ (Nat.le_refl _)]
    have hlength : count ≤ ((F.cut c).bumped.childrenOf p).length := by
      rw [childrenOf_bumped, childrenOf_cut, herase, List.length_eraseIdx_of_lt hcount]
      omega
    refine (bind_of_ok hstep).trans ?_
    rw [ih (hF.cut c).bumped (by simpa using hp) (c :: taken) hlength, htake,
      List.take_succ_eq_append_getElem hcount]
    rw [List.getElem?_eq_getElem hcount] at hc
    rw [Option.some.inj hc, List.append_assoc, Forest.cutAll, Forest.cutAll, List.foldr_append]
    rfl

/-- **Taking all children.** All of them are cut, the last one first. -/
theorem removeAll_eq (hF : F.WellFormed) (p : NodeId) :
    removeAll p F
      = if F.contains p = false then .error (.tree (.nodeNotFound p)) F
        else .ok (F.childrenOf p) (F.cutAll (F.childrenOf p)) := by
  unfold removeAll
  apply lookup_bind_eq
  intro target htarget
  rw [← childrenOf_of_get? htarget, hF.removeFirst_eq (contains_of_get? htarget) _ [] (Nat.le_refl _),
    List.take_length, List.append_nil]

/-- **Taking a node from its parent.** A root stays as it is. -/
theorem detach_eq (hF : F.WellFormed) (n : NodeId) :
    detach n F
      = if F.contains n = false then .error (.tree (.nodeNotFound n)) F
        else if F.parentOf n = none then .ok () F
        else .ok () (F.cut n).bumped := by
  unfold detach
  apply lookup_bind_eq
  intro node hnode
  have hn := contains_of_get? hnode
  have hparent := parentOf_of_get? hnode
  cases hp : node.parent with
  | none =>
    rw [if_pos (hparent.trans hp)]
    exact pure_eq () F
  | some p =>
    have hlink : F.parentOf n = some p := hparent.trans hp
    rw [if_neg (by simp [hlink])]
    refine (hF.removeChild_eq p n).trans ?_
    rw [if_neg (by simp [hn]), if_neg (by simp [hF.contains_parent hlink]),
      if_pos ((hF.mem_childrenOf_iff p n).2 hlink)]

end WellFormed

end Grove.Forest
