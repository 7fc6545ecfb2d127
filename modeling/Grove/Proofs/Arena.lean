import Grove.Arena
import Mathlib.Data.List.Perm.Subperm

/-!
# `Proofs.Arena` — sound arenas

An arena is *sound* if its bookkeeping fits its cells: the free list names each vacant cell once, no value is
younger than the removal counter, and the size is the number of values. The empty arena is sound and every
operation keeps it so. Soundness is what makes a new name new (`get?_insert_new`): the slot at the front of the
free list holds nothing, whatever names it has had before. It stays new for good: a name whose value has been taken
out is older than the counter from then on (`Spent`), and a slot that is used again gets the counter's reading. As
long as nothing is taken out, the slots are used in ascending order (`Compact`).

`mapNamed` changes all values at once, each by its name. A change of one value is a special case, so a sequence
of such changes is a single one (`mapNamed_mapNamed`), and two of them agree as soon as they agree on the values
that are there (`mapNamed_congr`).
-/

namespace Grove

variable {α : Type}

/-- Whether a cell holds a value. -/
def Cell.isOccupied : Cell α → Bool
  | .vacant => false
  | .occupied _ _ => true

/-- The value in a cell changed, with its name at hand. -/
def Cell.mapNamed (f : NodeId → α → α) (slot : Nat) : Cell α → Cell α
  | .vacant => .vacant
  | .occupied g v => .occupied g (f ⟨slot, g⟩ v)

@[simp] theorem Cell.isOccupied_mapNamed (f : NodeId → α → α) (slot : Nat) (cell : Cell α) :
    (cell.mapNamed f slot).isOccupied = cell.isOccupied := by
  cases cell <;> rfl

theorem Cell.mapNamed_eq_vacant_iff {f : NodeId → α → α} {slot : Nat} {cell : Cell α} :
    cell.mapNamed f slot = .vacant ↔ cell = .vacant := by
  cases cell <;> simp [Cell.mapNamed]

theorem Cell.isOccupied_eq_isSome (slot : Nat) (cell : Cell α) :
    (cell.entry? slot).isSome = cell.isOccupied := by
  cases cell <;> rfl

namespace Arena

/-- The free list, the counter and the size fit the cells. -/
structure Sound (a : Arena α) : Prop where
  free_nodup : a.free.Nodup
  mem_free_iff : ∀ slot, slot ∈ a.free ↔ a.cells[slot]? = some .vacant
  generation_le : ∀ id v, a.get? id = some v → id.generation ≤ a.removals
  size_eq : a.size = a.cells.countP Cell.isOccupied

/-! ## Names -/

/-- The names of the values that are there, in slot order. -/
def names (a : Arena α) : List NodeId :=
  a.entries.map Prod.fst

theorem mem_entries_iff {a : Arena α} {id : NodeId} {v : α} : (id, v) ∈ a.entries ↔ a.get? id = some v := by
  rw [get?_eq_some_iff]
  unfold entries
  rw [List.mem_filterMap]
  constructor
  · rintro ⟨⟨cell, slot⟩, hmem, hentry⟩
    have hcell : a.cells.toList[slot]? = some cell := List.mem_zipIdx_iff_getElem?.1 hmem
    cases cell with
    | vacant => simp [Cell.entry?] at hentry
    | occupied g w =>
      simp only [Cell.entry?, Option.some.injEq, Prod.mk.injEq] at hentry
      obtain ⟨rfl, rfl⟩ := hentry
      simpa using hcell
  · intro hcell
    refine ⟨(.occupied id.generation v, id.slot), ?_, rfl⟩
    exact List.mem_zipIdx_iff_getElem?.2 (by simpa using hcell)

theorem mem_names_iff {a : Arena α} {id : NodeId} : id ∈ a.names ↔ a.contains id = true := by
  rw [contains_iff]
  simp [names, mem_entries_iff]

theorem pairwise_zipIdx {β : Type} (l : List β) : l.zipIdx.Pairwise fun a b => a.2 < b.2 := by
  rw [← List.pairwise_map, List.zipIdx_map_snd]
  exact List.pairwise_lt_range'

/-- The names stand in the order of their slots, no two in one. -/
theorem pairwise_names (a : Arena α) : a.names.Pairwise fun m n => m.slot < n.slot := by
  unfold names entries
  rw [List.pairwise_map, List.pairwise_filterMap]
  refine (pairwise_zipIdx a.cells.toList).imp ?_
  rintro ⟨c, i⟩ ⟨d, j⟩ hij ⟨m, v⟩ hm ⟨n, w⟩ hn
  cases c <;> cases d <;> simp_all [Cell.entry?]
  obtain ⟨rfl, -⟩ := hm
  obtain ⟨rfl, -⟩ := hn
  exact hij

theorem nodup_names (a : Arena α) : a.names.Nodup := by
  refine a.pairwise_names.imp ?_
  rintro m n hlt rfl
  exact Nat.lt_irrefl _ hlt

/-- Cells are counted alike with their slots at hand and without. -/
theorem countP_zipIdx (cells : List (Cell α)) (p : Cell α × Nat → Bool)
    (hp : ∀ cell slot, p (cell, slot) = cell.isOccupied) : cells.zipIdx.countP p = cells.countP Cell.isOccupied := by
  have hcells : cells = cells.zipIdx.map Prod.fst := by simp
  conv_rhs => rw [hcells, List.countP_map]
  apply List.countP_congr
  rintro ⟨cell, slot⟩ -
  show p (cell, slot) = true ↔ cell.isOccupied = true
  rw [hp]

theorem Sound.length_names {a : Arena α} (ha : a.Sound) : a.names.length = a.size := by
  rw [ha.size_eq, names, List.length_map, entries, List.length_filterMap_eq_countP, ← Array.countP_toList]
  exact countP_zipIdx _ _ fun cell slot => Cell.isOccupied_eq_isSome slot cell

/-- Different names that resolve are at most as many as there are values. -/
theorem Sound.length_le_size {a : Arena α} (ha : a.Sound) {l : List NodeId} (hnodup : l.Nodup)
    (hlive : ∀ id ∈ l, a.contains id = true) : l.length ≤ a.size := by
  rw [← ha.length_names]
  exact (hnodup.subperm fun id hid => mem_names_iff.2 (hlive id hid)).length_le

/-! ## Changing values -/

/-- Every value changed, with its name at hand. -/
def mapNamed (f : NodeId → α → α) (a : Arena α) : Arena α :=
  { a with cells := a.cells.mapIdx (Cell.mapNamed f) }

@[simp] theorem get?_mapNamed (f : NodeId → α → α) (a : Arena α) (id : NodeId) :
    (a.mapNamed f).get? id = (a.get? id).map (f id) := by
  unfold get? mapNamed
  rw [Array.getElem?_mapIdx]
  rcases a.cells[id.slot]? with _ | _ | ⟨g, v⟩
  · rfl
  · rfl
  · by_cases hg : g = id.generation
    · subst hg
      simp [Cell.mapNamed]
    · simp [Cell.mapNamed, hg]

@[simp] theorem contains_mapNamed (f : NodeId → α → α) (a : Arena α) (id : NodeId) :
    (a.mapNamed f).contains id = a.contains id := by
  simp [contains]

@[simp] theorem size_mapNamed (f : NodeId → α → α) (a : Arena α) : (a.mapNamed f).size = a.size := rfl

theorem mapNamed_mapNamed (f g : NodeId → α → α) (a : Arena α) :
    (a.mapNamed f).mapNamed g = a.mapNamed fun id v => g id (f id v) := by
  unfold mapNamed
  congr 1
  apply Array.ext_getElem?
  intro slot
  simp only [Array.getElem?_mapIdx]
  rcases a.cells[slot]? with _ | _ | ⟨_, _⟩ <;> rfl

/-- Two changes that agree on what is there are one. -/
theorem mapNamed_congr {f g : NodeId → α → α} {a : Arena α}
    (h : ∀ id v, a.get? id = some v → f id v = g id v) : a.mapNamed f = a.mapNamed g := by
  unfold mapNamed
  congr 1
  apply Array.ext_getElem?
  intro slot
  simp only [Array.getElem?_mapIdx]
  rcases hcell : a.cells[slot]? with _ | _ | ⟨g', v⟩
  · rfl
  · rfl
  · have hv : a.get? ⟨slot, g'⟩ = some v := get?_eq_some_iff.2 hcell
    simp [Cell.mapNamed, h _ _ hv]

theorem mapNamed_eq_self {f : NodeId → α → α} {a : Arena α} (h : ∀ id v, a.get? id = some v → f id v = v) :
    a.mapNamed f = a := by
  rw [mapNamed_congr (g := fun _ v => v) h]
  unfold mapNamed
  have hcells : a.cells.mapIdx (Cell.mapNamed fun _ v => v) = a.cells := by
    apply Array.ext_getElem?
    intro slot
    rw [Array.getElem?_mapIdx]
    rcases a.cells[slot]? with _ | _ | ⟨_, _⟩ <;> rfl
  rw [hcells]

/-- The change of one value. -/
theorem modify_eq_mapNamed (a : Arena α) (id : NodeId) (f : α → α) :
    a.modify id f = a.mapNamed fun other v => if other = id then f v else v := by
  unfold modify
  cases hid : a.get? id with
  | none =>
    refine (mapNamed_eq_self fun other v hv => if_neg ?_).symm
    rintro rfl
    simp [hid] at hv
  | some v =>
    have hcell := get?_eq_some_iff.1 hid
    simp only [mapNamed]
    congr 1
    apply Array.ext_getElem?
    intro slot
    rw [Array.getElem?_mapIdx]
    by_cases hslot : id.slot = slot
    · subst hslot
      rw [Array.getElem?_setIfInBounds_self_of_lt (Array.getElem?_eq_some_iff.1 hcell).1, hcell]
      simp [Cell.mapNamed]
    · have hother : ∀ g, (⟨slot, g⟩ : NodeId) ≠ id := by
        rintro g rfl
        exact hslot rfl
      rw [Array.getElem?_setIfInBounds_ne hslot]
      rcases a.cells[slot]? with _ | _ | ⟨g, w⟩
      · rfl
      · rfl
      · simp [Cell.mapNamed, hother]

theorem Sound.mapNamed {a : Arena α} (ha : a.Sound) (f : NodeId → α → α) : (a.mapNamed f).Sound where
  free_nodup := ha.free_nodup
  mem_free_iff slot := by
    rw [show (a.mapNamed f).free = a.free from rfl, ha.mem_free_iff slot]
    simp [Arena.mapNamed, Cell.mapNamed_eq_vacant_iff]
  generation_le id v h := by
    obtain ⟨w, hw, -⟩ := Option.map_eq_some_iff.1 ((get?_mapNamed f a id).symm.trans h)
    exact ha.generation_le id w hw
  size_eq := by
    have hcells : (a.cells.mapIdx (Cell.mapNamed f)).countP Cell.isOccupied = a.cells.countP Cell.isOccupied := by
      rw [← Array.countP_toList, ← Array.countP_toList, Array.toList_mapIdx, List.mapIdx_eq_zipIdx_map, List.countP_map]
      exact countP_zipIdx _ _ fun cell slot => Cell.isOccupied_mapNamed f slot cell
    rw [size_mapNamed, ha.size_eq]
    exact hcells.symm

/-! ## Adding and removing values -/

theorem Sound.empty : (empty : Arena α).Sound where
  free_nodup := List.nodup_range
  mem_free_iff slot := by simp [Arena.empty, Array.getElem?_replicate]
  generation_le id v h := by simp at h
  size_eq := by simp [Arena.empty, Array.countP_replicate, Cell.isOccupied]

/-- The cells of an arena that has grown: those before, the new one, and vacant ones. -/
theorem getElem?_grown (cells : Array (Cell α)) (new : Cell α) (vacant slot : Nat) :
    (cells.push new ++ Array.replicate vacant .vacant)[slot]?
      = if slot < cells.size then cells[slot]?
        else if slot = cells.size then some new
        else if slot < cells.size + 1 + vacant then some .vacant
        else none := by
  rw [Array.getElem?_append, Array.size_push, Array.getElem?_push, Array.getElem?_replicate]
  rcases Nat.lt_trichotomy slot cells.size with hlt | heq | hgt
  · rw [if_pos (Nat.lt_succ_of_lt hlt), if_neg (Nat.ne_of_lt hlt), if_pos hlt]
  · rw [if_pos (heq ▸ Nat.lt_succ_self _), if_pos heq, if_neg (heq ▸ Nat.lt_irrefl _), if_pos heq]
  · rw [if_neg (Nat.not_lt.2 hgt), if_neg (Nat.lt_asymm hgt), if_neg (Nat.ne_of_gt hgt)]
    by_cases hvacant : slot < cells.size + 1 + vacant
    · rw [if_pos (by omega), if_pos hvacant]
    · rw [if_neg (by omega), if_neg hvacant]

theorem Sound.vacant_of_free {a : Arena α} (ha : a.Sound) {slot : Nat} {rest : List Nat}
    (hfree : a.free = slot :: rest) : a.cells[slot]? = some .vacant :=
  (ha.mem_free_iff slot).1 (hfree ▸ List.mem_cons_self ..)

/-- The name of a new value is new. -/
theorem Sound.get?_insert_new {a : Arena α} (ha : a.Sound) (v : α) : a.get? (a.insert v).1 = none := by
  unfold insert
  split
  · rename_i slot rest hfree
    simp [get?, ha.vacant_of_free hfree]
  · simp [get?]

/-- Two names in one slot differ in their generation. -/
theorem generation_ne {id : NodeId} {slot g : Nat} (hid : id ≠ ⟨slot, g⟩) (hslot : id.slot = slot) :
    g ≠ id.generation := by
  rintro rfl
  exact hid (hslot ▸ rfl)

theorem Sound.get?_insert {a : Arena α} (ha : a.Sound) (v : α) (id : NodeId) :
    (a.insert v).2.get? id = if id = (a.insert v).1 then some v else a.get? id := by
  by_cases hid : id = (a.insert v).1
  · rw [if_pos hid, hid]
    refine get?_insert_self a v fun slot hslot => ?_
    exact (Array.getElem?_eq_some_iff.1 ((ha.mem_free_iff slot).1 hslot)).1
  · rw [if_neg hid]
    unfold insert at hid ⊢
    split at hid
    · -- a slot used again was vacant, so no old name resolved there
      rename_i slot rest hfree
      have hcell := ha.vacant_of_free hfree
      have hlt := (Array.getElem?_eq_some_iff.1 hcell).1
      simp only
      by_cases hslot : id.slot = slot
      · have hgen := generation_ne hid hslot
        have hold : a.get? id = none := by simp only [get?, hslot, hcell]
        rw [hold]
        simp [get?, hslot, hlt, hgen]
      · exact get?_setIfInBounds_of_ne rfl (Ne.symm hslot)
    · -- the old cells stay where they are, and the new ones beside the value's are vacant
      simp only [get?, getElem?_grown]
      rcases Nat.lt_trichotomy id.slot a.cells.size with hlt | heq | hgt
      · rw [if_pos hlt]
      · have hgen := generation_ne hid heq
        simp [heq, hgen]
      · rw [if_neg (Nat.lt_asymm hgt), if_neg (Nat.ne_of_gt hgt), Array.getElem?_eq_none (Nat.le_of_lt hgt)]
        split <;> simp_all

/-- Putting a value in removes none. -/
theorem removals_insert (a : Arena α) (v : α) : (a.insert v).2.removals = a.removals := by
  unfold insert
  split <;> rfl

/-- A new name has the counter's reading. -/
theorem generation_insert (a : Arena α) (v : α) : (a.insert v).1.generation = a.removals := by
  unfold insert
  split <;> rfl

/-- Overwriting a cell moves one count from the old cell to the new one. -/
theorem countP_setIfInBounds {cells : Array (Cell α)} {slot : Nat} {old : Cell α} (new : Cell α)
    (hold : cells[slot]? = some old) :
    (cells.setIfInBounds slot new).countP Cell.isOccupied + (if old.isOccupied then 1 else 0)
      = cells.countP Cell.isOccupied + (if new.isOccupied then 1 else 0) := by
  obtain ⟨hlt, hcell⟩ := Array.getElem?_eq_some_iff.1 hold
  rw [Array.setIfInBounds_def, dif_pos hlt, Array.countP_set hlt, hcell]
  by_cases hocc : old.isOccupied = true
  · -- the old cell was counted, so taking it from the count loses nothing
    have hpos : 0 < cells.countP Cell.isOccupied :=
      Array.countP_pos_iff.2 ⟨old, hcell ▸ Array.getElem_mem hlt, hocc⟩
    simp only [hocc, if_true]
    omega
  · simp [hocc]

/-- The free list after its front slot is filled. -/
theorem Sound.mem_rest_iff {a : Arena α} (ha : a.Sound) {front : Nat} {rest : List Nat}
    (hfree : a.free = front :: rest) (g : Nat) (v : α) (slot : Nat) :
    slot ∈ rest ↔ (a.cells.setIfInBounds front (.occupied g v))[slot]? = some .vacant := by
  have hnodup := List.nodup_cons.1 (hfree ▸ ha.free_nodup)
  have hmem := ha.mem_free_iff slot
  rw [hfree, List.mem_cons] at hmem
  by_cases hslot : front = slot
  · subst hslot
    have hlt : front < a.cells.size := (Array.getElem?_eq_some_iff.1 (hmem.1 (.inl rfl))).1
    simp [hnodup.1, hlt]
  · rw [Array.getElem?_setIfInBounds_ne hslot, ← hmem]
    simp [Ne.symm hslot]

/-- The free list after the cells have grown: without a free slot before, it has just the new vacant ones. -/
theorem Sound.mem_range'_iff {a : Arena α} (ha : a.Sound) (hfree : a.free = []) (g : Nat) (v : α)
    (vacant slot : Nat) :
    slot ∈ List.range' (a.cells.size + 1) vacant
      ↔ (a.cells.push (.occupied g v) ++ Array.replicate vacant .vacant)[slot]? = some .vacant := by
  have hold : a.cells[slot]? ≠ some .vacant := by
    rw [Ne, ← ha.mem_free_iff slot, hfree]
    exact List.not_mem_nil
  rw [getElem?_grown, List.mem_range'_1]
  rcases Nat.lt_trichotomy slot a.cells.size with hlt | heq | hgt
  · rw [if_pos hlt]
    constructor
    · rintro ⟨hge, -⟩
      omega
    · exact fun h => absurd h hold
  · rw [if_neg (heq ▸ Nat.lt_irrefl _), if_pos heq]
    constructor
    · rintro ⟨hge, -⟩
      omega
    · exact nofun
  · rw [if_neg (Nat.lt_asymm hgt), if_neg (Nat.ne_of_gt hgt)]
    by_cases hvacant : slot < a.cells.size + 1 + vacant
    · rw [if_pos hvacant]
      constructor
      · exact fun _ => rfl
      · exact fun _ => ⟨hgt, hvacant⟩
    · simp [hvacant]

theorem Sound.insert {a : Arena α} (ha : a.Sound) (v : α) : (a.insert v).2.Sound where
  free_nodup := by
    unfold Arena.insert
    split
    · rename_i slot rest hfree
      exact (List.nodup_cons.1 (hfree ▸ ha.free_nodup)).2
    · exact List.nodup_range'
  mem_free_iff slot := by
    unfold Arena.insert
    split
    · rename_i front rest hfree
      exact ha.mem_rest_iff hfree a.removals v slot
    · rename_i hfree
      exact ha.mem_range'_iff hfree a.removals v (a.cells.size - 1) slot
  generation_le id w h := by
    rw [removals_insert]
    rw [ha.get?_insert v id] at h
    split at h
    · rename_i hid
      exact Nat.le_of_eq (hid ▸ generation_insert a v)
    · exact ha.generation_le id w h
  size_eq := by
    unfold Arena.insert
    split
    · rename_i slot rest hfree
      have hcount := countP_setIfInBounds (.occupied a.removals v) (ha.vacant_of_free hfree)
      simp only [Cell.isOccupied, Bool.false_eq_true, if_false, if_true, Nat.add_zero] at hcount
      simp only [hcount, ha.size_eq]
    · simp [Array.countP_push, Array.countP_replicate, Cell.isOccupied, ha.size_eq]

theorem Sound.erase {a b : Arena α} (ha : a.Sound) {id : NodeId} {v : α} (h : a.erase id = some (v, b)) :
    b.Sound := by
  have hid := get?_of_erase h
  have hcell := get?_eq_some_iff.1 hid
  have hlt := (Array.getElem?_eq_some_iff.1 hcell).1
  have hget := get?_erase h
  unfold Arena.erase at h
  rw [hid] at h
  simp only [Option.some.injEq, Prod.mk.injEq, true_and] at h
  -- the slot is not free yet, since its cell holds the value
  have hnew : id.slot ∉ a.free := by
    rw [ha.mem_free_iff, hcell]
    simp
  subst h
  refine ⟨List.nodup_cons.2 ⟨hnew, ha.free_nodup⟩, fun slot => ?_, fun other w hw => ?_, ?_⟩
  · by_cases hslot : id.slot = slot
    · subst hslot
      simp [hlt]
    · simp only
      rw [Array.getElem?_setIfInBounds_ne hslot, List.mem_cons, ← ha.mem_free_iff slot]
      simp [Ne.symm hslot]
  · rw [hget other] at hw
    split at hw
    · simp at hw
    · exact Nat.le_succ_of_le (ha.generation_le other w hw)
  · have hcount := countP_setIfInBounds .vacant hcell
    simp only [Cell.isOccupied, Bool.false_eq_true, if_false, if_true, Nat.add_zero] at hcount
    simp only [ha.size_eq, ← hcount]
    omega

theorem removals_erase {a b : Arena α} {id : NodeId} {v : α} (h : a.erase id = some (v, b)) :
    b.removals = a.removals + 1 := by
  unfold Arena.erase at h
  rw [get?_of_erase h] at h
  simp only [Option.some.injEq, Prod.mk.injEq] at h
  rw [← h.2]

/-! ## Removing several values -/

/-- The values under the names listed taken out one after the other; names that do not resolve are passed
    over. -/
def eraseAll (l : List NodeId) (a : Arena α) : Arena α :=
  l.foldl (fun a id => match a.erase id with
    | some (_, b) => b
    | none => a) a

theorem eraseAll_cons_of_erase {a b : Arena α} {id : NodeId} {v : α} (h : a.erase id = some (v, b))
    (l : List NodeId) : a.eraseAll (id :: l) = b.eraseAll l := by
  simp only [eraseAll, List.foldl_cons, h]

theorem eraseAll_cons_of_none {a : Arena α} {id : NodeId} (h : a.get? id = none) (l : List NodeId) :
    a.eraseAll (id :: l) = a.eraseAll l := by
  simp only [eraseAll, List.foldl_cons, erase_eq_none_iff.2 h]

theorem exists_erase {a : Arena α} {id : NodeId} {v : α} (h : a.get? id = some v) :
    ∃ b, a.erase id = some (v, b) := by
  simp [erase, h]

theorem get?_eraseAll (l : List NodeId) (a : Arena α) (id : NodeId) :
    (a.eraseAll l).get? id = if id ∈ l then none else a.get? id := by
  induction l generalizing a with
  | nil => simp [eraseAll]
  | cons first l ih =>
    cases hfirst : a.get? first with
    | none =>
      rw [eraseAll_cons_of_none hfirst, ih]
      by_cases hid : id = first
      · simp [hid, hfirst]
      · simp [hid]
    | some v =>
      obtain ⟨b, hb⟩ := exists_erase hfirst
      rw [eraseAll_cons_of_erase hb, ih, get?_erase hb]
      by_cases hid : id = first
      · simp [hid]
      · simp [hid]

theorem Sound.eraseAll {a : Arena α} (ha : a.Sound) (l : List NodeId) : (a.eraseAll l).Sound := by
  induction l generalizing a with
  | nil => exact ha
  | cons first l ih =>
    cases hfirst : a.get? first with
    | none =>
      rw [eraseAll_cons_of_none hfirst]
      exact ih ha
    | some v =>
      obtain ⟨b, hb⟩ := exists_erase hfirst
      rw [eraseAll_cons_of_erase hb]
      exact ih (ha.erase hb)

theorem contains_eraseAll_iff {l : List NodeId} {a : Arena α} {id : NodeId} :
    (a.eraseAll l).contains id = true ↔ a.contains id = true ∧ id ∉ l := by
  rw [contains, contains, get?_eraseAll]
  by_cases hid : id ∈ l <;> simp [hid]

/-- What is taken out and what is left are together what was there. -/
theorem Sound.size_eraseAll {a : Arena α} (ha : a.Sound) {l : List NodeId} (hnodup : l.Nodup)
    (hlive : ∀ id ∈ l, a.contains id = true) : (a.eraseAll l).size + l.length = a.size := by
  have hdisjoint : ∀ id ∈ (a.eraseAll l).names, ∀ id' ∈ l, id ≠ id' := by
    rintro id hid _ hgone rfl
    exact (contains_eraseAll_iff.1 (mem_names_iff.1 hid)).2 hgone
  have hboth : ((a.eraseAll l).names ++ l).Nodup :=
    List.nodup_append.2 ⟨(a.eraseAll l).nodup_names, hnodup, hdisjoint⟩
  have hperm : ((a.eraseAll l).names ++ l).Perm a.names := by
    rw [List.perm_ext_iff_of_nodup hboth a.nodup_names]
    intro id
    rw [List.mem_append, mem_names_iff, mem_names_iff, contains_eraseAll_iff]
    by_cases hid : id ∈ l
    · simp [hid, hlive id hid]
    · simp [hid]
  rw [← (ha.eraseAll l).length_names, ← ha.length_names, ← List.length_append, hperm.length_eq]

theorem removals_le_eraseAll (l : List NodeId) (a : Arena α) : a.removals ≤ (a.eraseAll l).removals := by
  induction l generalizing a with
  | nil => exact Nat.le_refl _
  | cons first l ih =>
    cases hfirst : a.get? first with
    | none =>
      rw [eraseAll_cons_of_none hfirst]
      exact ih a
    | some v =>
      obtain ⟨b, hb⟩ := exists_erase hfirst
      have hstep := removals_erase hb
      have hrest := ih b
      rw [eraseAll_cons_of_erase hb]
      omega

/-- Taking out a value that is there counts. -/
theorem removals_lt_eraseAll {a : Arena α} {l : List NodeId} {id : NodeId} {v : α} (hid : a.get? id = some v)
    (hmem : id ∈ l) : a.removals < (a.eraseAll l).removals := by
  induction l generalizing a with
  | nil => cases hmem
  | cons first l ih =>
    cases hfirst : a.get? first with
    | none =>
      -- the name first on the list is another one, since this one resolves
      have hmem' : id ∈ l := by
        refine (List.mem_cons.1 hmem).resolve_left ?_
        rintro rfl
        rw [hfirst] at hid
        cases hid
      rw [eraseAll_cons_of_none hfirst]
      exact ih hid hmem'
    | some w =>
      obtain ⟨b, hb⟩ := exists_erase hfirst
      have hstep := removals_erase hb
      have hrest := removals_le_eraseAll l b
      rw [eraseAll_cons_of_erase hb]
      omega

/-! ## Names that are used up -/

/-- The name resolves no more, and names to come are younger. -/
def Spent (a : Arena α) (id : NodeId) : Prop :=
  a.get? id = none ∧ id.generation < a.removals

namespace Spent

variable {a : Arena α} {id : NodeId}

theorem mapNamed (h : a.Spent id) (f : NodeId → α → α) : (a.mapNamed f).Spent id := by
  refine ⟨?_, h.2⟩
  rw [get?_mapNamed, h.1, Option.map_none]

/-- A new name is never one that is spent. -/
theorem ne_insert (h : a.Spent id) (v : α) : id ≠ (a.insert v).1 := by
  intro heq
  have hlt := h.2
  rw [heq, generation_insert] at hlt
  exact Nat.lt_irrefl _ hlt

theorem insert (h : a.Spent id) (ha : a.Sound) (v : α) : (a.insert v).2.Spent id := by
  constructor
  · rw [ha.get?_insert, if_neg (h.ne_insert v)]
    exact h.1
  · rw [removals_insert]
    exact h.2

theorem eraseAll (h : a.Spent id) (l : List NodeId) : (a.eraseAll l).Spent id := by
  constructor
  · rw [get?_eraseAll, h.1, ite_self]
  · exact Nat.lt_of_lt_of_le h.2 (removals_le_eraseAll l a)

end Spent

/-- A value that is taken out leaves its name spent. -/
theorem Sound.spent_eraseAll {a : Arena α} (ha : a.Sound) {l : List NodeId} {id : NodeId} {v : α}
    (hid : a.get? id = some v) (hmem : id ∈ l) : (a.eraseAll l).Spent id := by
  constructor
  · rw [get?_eraseAll, if_pos hmem]
  · exact Nat.lt_of_le_of_lt (ha.generation_le id v hid) (removals_lt_eraseAll hid hmem)

/-! ## Arenas from which nothing was removed -/

/-- The values are in the first slots, and the other slots are free in ascending order. -/
structure Compact (a : Arena α) : Prop where
  removals_eq : a.removals = 0
  size_le : a.size ≤ a.cells.size
  free_eq : a.free = List.range' a.size (a.cells.size - a.size)

namespace Compact

variable {a : Arena α}

theorem empty : (empty : Arena α).Compact where
  removals_eq := rfl
  size_le := Nat.zero_le _
  free_eq := rfl

theorem mapNamed (h : a.Compact) (f : NodeId → α → α) : (a.mapNamed f).Compact where
  removals_eq := h.removals_eq
  size_le := by
    show a.size ≤ (a.cells.mapIdx (Cell.mapNamed f)).size
    rw [Array.size_mapIdx]
    exact h.size_le
  free_eq := by
    show a.free = List.range' a.size ((a.cells.mapIdx (Cell.mapNamed f)).size - a.size)
    rw [Array.size_mapIdx]
    exact h.free_eq

/-- A new value goes into the next slot, and stays there under the name with generation 0. -/
theorem insert (h : a.Compact) (v : α) : (a.insert v).1 = ⟨a.size, 0⟩ ∧ (a.insert v).2.Compact := by
  have hfree := h.free_eq
  have hle := h.size_le
  unfold Arena.insert
  split
  · rename_i slot rest hlist
    rw [hlist] at hfree
    obtain ⟨k, hk⟩ : ∃ k, a.cells.size - a.size = k + 1 := by
      refine ⟨a.cells.size - a.size - 1, ?_⟩
      have hlength := congrArg List.length hfree
      rw [List.length_cons, List.length_range'] at hlength
      omega
    rw [hk, List.range'_succ] at hfree
    obtain ⟨rfl, rfl⟩ := List.cons.inj hfree
    refine ⟨by rw [h.removals_eq], h.removals_eq, ?_, ?_⟩
    · simp only [Array.size_setIfInBounds]
      omega
    · simp only [Array.size_setIfInBounds]
      rw [show a.cells.size - (a.size + 1) = k by omega]
  · rename_i hlist
    rw [hlist] at hfree
    have hfull : a.cells.size = a.size := by
      have hlength := congrArg List.length hfree
      rw [List.length_nil, List.length_range'] at hlength
      omega
    refine ⟨by rw [h.removals_eq, hfull], h.removals_eq, ?_, ?_⟩
    · simp only [Array.size_append, Array.size_push]
      omega
    · simp only [Array.size_append, Array.size_push, Array.size_replicate, hfull]
      congr 1
      omega

end Compact

theorem size_insert (a : Arena α) (v : α) : (a.insert v).2.size = a.size + 1 := by
  unfold insert
  split <;> rfl

end Arena

end Grove
