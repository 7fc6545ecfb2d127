import Grove.NodeId

/-!
# `Grove.Arena` — slots with generations

An arena keeps values in numbered slots. Free slots form a list: a new value takes the slot at its front, and a
slot that is given up goes back to the front, so the slot freed last is the first to be used again. When no slot
is free the number of slots doubles and the new ones are taken in ascending order.

Every removal adds one to a counter, and a value is named by its slot together with the counter's reading when
it was put there.

## Contents
- `Arena.get?` reads through a name, `Arena.insert`, `Arena.modify` and `Arena.erase` write.
- `Arena.entries` lists what is stored, in slot order.
- The laws at the end say what is read after a write: a write through a name changes what that name reads, and
  no other name's reading.
-/

namespace Grove

/-- One slot of an arena. -/
inductive Cell (α : Type) where
  | vacant
  | occupied (generation : Nat) (value : α)

/-- What a cell in slot `slot` holds, under its name. -/
def Cell.entry? {α : Type} (slot : Nat) : Cell α → Option (NodeId × α)
  | .vacant => none
  | .occupied g v => some (⟨slot, g⟩, v)

/-- Numbered slots, the list of the free ones, the number of removals so far and the number of values held. -/
structure Arena (α : Type) where
  cells : Array (Cell α)
  free : List Nat
  removals : Nat
  size : Nat

namespace Arena

variable {α : Type}

/-- The number of slots a new arena has. -/
def initialCapacity : Nat := 4

/-- An arena that holds nothing; its slots are taken in ascending order. -/
def empty : Arena α where
  cells := Array.replicate initialCapacity .vacant
  free := List.range initialCapacity
  removals := 0
  size := 0

instance : Inhabited (Arena α) := ⟨empty⟩

/-! ## Reading -/

/-- The value named `id`: the one in its slot, if it was put there at the name's generation. -/
def get? (a : Arena α) (id : NodeId) : Option α :=
  match a.cells[id.slot]? with
  | some (.occupied g v) => if g = id.generation then some v else none
  | _ => none

/-- Whether `id` names a value that is still there. -/
def contains (a : Arena α) (id : NodeId) : Bool :=
  (a.get? id).isSome

/-- Every stored value under its name, in slot order. -/
def entries (a : Arena α) : List (NodeId × α) :=
  a.cells.toList.zipIdx.filterMap fun (cell, slot) => cell.entry? slot

/-! ## Writing -/

/-- Put `v` into the next free slot. Without one the capacity doubles: the value goes to the first new slot
    and the other new slots become free, in ascending order. -/
def insert (a : Arena α) (v : α) : NodeId × Arena α :=
  match a.free with
  | slot :: rest =>
    (⟨slot, a.removals⟩,
      { a with cells := a.cells.setIfInBounds slot (.occupied a.removals v), free := rest, size := a.size + 1 })
  | [] =>
    let n := a.cells.size
    (⟨n, a.removals⟩,
      { a with
        cells := a.cells.push (.occupied a.removals v) ++ Array.replicate (n - 1) .vacant
        free := List.range' (n + 1) (n - 1)
        size := a.size + 1 })

/-- Replace the value named `id` by its image under `f`; nothing happens if there is none. -/
def modify (a : Arena α) (id : NodeId) (f : α → α) : Arena α :=
  match a.get? id with
  | some v => { a with cells := a.cells.setIfInBounds id.slot (.occupied id.generation (f v)) }
  | none => a

/-- Take out the value named `id`. Its slot becomes the first free one and the removal is counted. -/
def erase (a : Arena α) (id : NodeId) : Option (α × Arena α) :=
  match a.get? id with
  | some v =>
    some (v,
      { cells := a.cells.setIfInBounds id.slot .vacant
        free := id.slot :: a.free
        removals := a.removals + 1
        size := a.size - 1 })
  | none => none

/-! ## Reading after a write -/

@[simp] theorem get?_empty (id : NodeId) : (empty : Arena α).get? id = none := by
  unfold get? empty
  by_cases h : id.slot < initialCapacity <;> simp [h]

theorem contains_iff {a : Arena α} {id : NodeId} : a.contains id = true ↔ ∃ v, a.get? id = some v := by
  simp [contains, Option.isSome_iff_exists]

/-- A name that resolves has its cell. -/
theorem get?_eq_some_iff {a : Arena α} {id : NodeId} {v : α} :
    a.get? id = some v ↔ a.cells[id.slot]? = some (.occupied id.generation v) := by
  unfold get?
  constructor
  · intro h
    split at h
    · rename_i g w hcell
      split at h
      · rename_i hg
        rw [hcell, hg]
        simpa using h
      · simp at h
    · simp at h
  · intro h
    simp [h]

/-- Two names that resolve in one slot are the same name. -/
theorem eq_of_slot_eq {a : Arena α} {id other : NodeId} {v w : α} (hid : a.get? id = some v)
    (hother : a.get? other = some w) (hslot : id.slot = other.slot) : id = other := by
  rw [get?_eq_some_iff] at hid hother
  rw [hslot, hother] at hid
  cases id
  cases other
  simp_all

/-- After a cell is overwritten the other slots read as before. -/
theorem get?_setIfInBounds_of_ne {a b : Arena α} {slot : Nat} {cell : Cell α}
    (hcells : b.cells = a.cells.setIfInBounds slot cell) {id : NodeId} (hne : slot ≠ id.slot) :
    b.get? id = a.get? id := by
  simp [get?, hcells, Array.getElem?_setIfInBounds_ne hne]

theorem get?_modify (a : Arena α) (id other : NodeId) (f : α → α) :
    (a.modify id f).get? other = if other = id then (a.get? id).map f else a.get? other := by
  unfold modify
  cases hid : a.get? id with
  | none =>
    by_cases h : other = id
    · simp [h, hid]
    · simp [h]
  | some v =>
    have hcell := get?_eq_some_iff.1 hid
    have hlt : id.slot < a.cells.size := (Array.getElem?_eq_some_iff.1 hcell).1
    by_cases h : other = id
    · simp [h, get?, hlt]
    · by_cases hslot : id.slot = other.slot
      · have hgen : id.generation ≠ other.generation := by
          intro hg
          exact h (by cases id; cases other; simp_all)
        have hold : a.get? other = none := by
          cases ho : a.get? other with
          | none => rfl
          | some w => exact absurd (eq_of_slot_eq ho hid hslot.symm) h
        rw [if_neg h, hold]
        simp [get?, ← hslot, hlt, hgen]
      · simp [h, get?, Array.getElem?_setIfInBounds_ne hslot]

theorem erase_eq_none_iff {a : Arena α} {id : NodeId} : a.erase id = none ↔ a.get? id = none := by
  unfold erase
  cases a.get? id <;> simp

/-- Erasing answers with the value that was there. -/
theorem get?_of_erase {a b : Arena α} {id : NodeId} {v : α} (h : a.erase id = some (v, b)) :
    a.get? id = some v := by
  unfold erase at h
  split at h
  · rename_i w hw
    simp only [Option.some.injEq, Prod.mk.injEq] at h
    rw [hw, h.1]
  · simp at h

/-- An erased name no longer resolves, and the other names read as before. -/
theorem get?_erase {a b : Arena α} {id : NodeId} {v : α} (h : a.erase id = some (v, b)) (other : NodeId) :
    b.get? other = if other = id then none else a.get? other := by
  have hid := get?_of_erase h
  have hcell := get?_eq_some_iff.1 hid
  have hlt : id.slot < a.cells.size := (Array.getElem?_eq_some_iff.1 hcell).1
  have hcells : b.cells = a.cells.setIfInBounds id.slot .vacant := by
    unfold erase at h
    rw [hid] at h
    simp only [Option.some.injEq, Prod.mk.injEq] at h
    rw [← h.2]
  by_cases hslot : id.slot = other.slot
  · have hb : b.get? other = none := by
      simp [get?, hcells, ← hslot, hlt]
    rw [hb]
    by_cases hother : other = id
    · simp [hother]
    · cases ho : a.get? other with
      | none => simp
      | some w => exact absurd (eq_of_slot_eq ho hid hslot.symm) hother
  · have hother : other ≠ id := by
      rintro rfl
      exact hslot rfl
    simp [hother, get?_setIfInBounds_of_ne hcells hslot]

/-- A new value is read under its name, provided that the free slots exist. -/
theorem get?_insert_self (a : Arena α) (v : α) (hfree : ∀ slot ∈ a.free, slot < a.cells.size) :
    (a.insert v).2.get? (a.insert v).1 = some v := by
  unfold insert
  split
  · rename_i slot rest hlist
    have hlt : slot < a.cells.size := hfree slot (by simp [hlist])
    simp [get?, hlt]
  · simp [get?, Array.getElem?_append]

end Arena

end Grove
