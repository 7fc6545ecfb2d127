import Grove.Proofs.Forest.Names
import Grove.Proofs.Forest.Remains
import Grove.Proofs.Forest.Taking

/-!
# `Proofs.Forest.Reuse` — which slots new nodes take

The free slots stand in a list that is used from the front, and behind its end the arena grows. So the names of all
nodes to come are known, as long as none is taken out (`Arena.upcoming`): putting a value in uses up the first of them
(`Arena.upcoming_insert`), and calls that neither make a node nor give one up change none (`upcoming_after`). A run
without such a release hands out just these names (`namesMade_eq`).

Giving up a subtree puts its slots before the others. The stack releases the subtree in the reverse of its postorder,
and the free list reverses it once more, so the slots come back in postorder (`Arena.free_eraseAll`). The reading of
the counter in the names is the number of nodes that have been given up in the whole history of the forest
(`removals_afterAll`).
-/

namespace Grove

/-! ## The names to come -/

namespace Arena

variable {α : Type}

/-- The names of the next `k` values that are put in, if none is taken out meanwhile: the free slots from the front, and
    then new ones. -/
def upcoming (a : Arena α) (k : Nat) : List NodeId :=
  ((a.free ++ List.range' a.cells.size k).take k).map (⟨·, a.removals⟩)

/-- **A new value gets the first of the names to come**, and leaves the others. -/
theorem upcoming_insert (a : Arena α) (v : α) (k : Nat) :
    a.upcoming (k + 1) = (a.insert v).1 :: (a.insert v).2.upcoming k := by
  unfold upcoming insert
  split
  · rename_i slot rest hfree
    have hlength : k ≤ (rest ++ List.range' a.cells.size k).length := by simp
    simp only [hfree, List.cons_append, List.take_succ_cons, List.map_cons, Array.size_setIfInBounds]
    rw [List.range'_concat, ← List.append_assoc, List.take_append_of_le_length hlength]
  · rename_i hfree
    -- the slots that are new now are followed by those of the next growth
    have hslots : List.range' (a.cells.size + 1) (a.cells.size - 1)
          ++ List.range' (a.cells.size + 1 + (a.cells.size - 1)) k
        = List.range' (a.cells.size + 1) k ++ List.range' (a.cells.size + 1 + k) (a.cells.size - 1) := by
      rw [List.range'_append_1, List.range'_append_1, Nat.add_comm k]
    have htake : ((List.range' (a.cells.size + 1) k ++ List.range' (a.cells.size + 1 + k) (a.cells.size - 1)).take k)
        = List.range' (a.cells.size + 1) k := List.take_left' List.length_range'
    simp only [hfree, List.nil_append, List.range'_succ, List.take_succ_cons, List.map_cons, Array.size_append,
      Array.size_push, Array.size_replicate]
    rw [hslots, htake, List.take_of_length_le (Nat.le_of_eq List.length_range')]

theorem upcoming_mapNamed (f : NodeId → α → α) (a : Arena α) (k : Nat) :
    (a.mapNamed f).upcoming k = a.upcoming k := by
  simp only [upcoming, mapNamed, Array.size_mapIdx]

/-- The free slots are those in which nothing is. -/
theorem Sound.mem_free_iff_unused {a : Arena α} (ha : a.Sound) (slot : Nat) :
    slot ∈ a.free ↔ slot < a.cells.size ∧ ∀ id, a.contains id = true → id.slot ≠ slot := by
  rw [ha.mem_free_iff]
  constructor
  · intro hvacant
    refine ⟨(Array.getElem?_eq_some_iff.1 hvacant).1, ?_⟩
    rintro id hid rfl
    obtain ⟨v, hv⟩ := contains_iff.1 hid
    rw [get?_eq_some_iff, hvacant] at hv
    cases hv
  · rintro ⟨hlt, hunused⟩
    rw [Array.getElem?_eq_getElem hlt]
    cases hcell : a.cells[slot] with
    | vacant => rfl
    | occupied g v =>
      refine absurd rfl (hunused ⟨slot, g⟩ (contains_iff.2 ⟨v, ?_⟩))
      rw [get?_eq_some_iff, Array.getElem?_eq_getElem hlt, hcell]

/-! ### After values are taken out -/

theorem erase_eq {a : Arena α} {id : NodeId} {v : α} (hid : a.get? id = some v) :
    a.erase id = some (v, ⟨a.cells.setIfInBounds id.slot .vacant, id.slot :: a.free, a.removals + 1, a.size - 1⟩) := by
  rw [erase, hid]

/-- What is taken out is counted, and its slots are the first to be used, the one given up last before the others. -/
theorem free_eraseAll {a : Arena α} {l : List NodeId} (hnodup : l.Nodup) (hlive : ∀ id ∈ l, a.contains id = true) :
    (a.eraseAll l).free = (l.map NodeId.slot).reverse ++ a.free ∧
      (a.eraseAll l).cells.size = a.cells.size ∧ (a.eraseAll l).removals = a.removals + l.length := by
  induction l generalizing a with
  | nil => exact ⟨rfl, rfl, rfl⟩
  | cons id l ih =>
    obtain ⟨hnew, hnodup⟩ := List.nodup_cons.1 hnodup
    obtain ⟨hid, hlater⟩ := List.forall_mem_cons.1 hlive
    obtain ⟨v, hv⟩ := contains_iff.1 hid
    have herase := erase_eq hv
    have hkept : ∀ other ∈ l, contains (α := α) ⟨a.cells.setIfInBounds id.slot .vacant, id.slot :: a.free,
        a.removals + 1, a.size - 1⟩ other = true := by
      intro other hother
      have hne : other ≠ id := by
        rintro rfl
        exact hnew hother
      rw [contains, get?_erase herase, if_neg hne]
      exact hlater other hother
    obtain ⟨hfree, hsize, hremovals⟩ := ih hnodup hkept
    rw [eraseAll_cons_of_erase herase, hfree, hsize, hremovals]
    refine ⟨?_, Array.size_setIfInBounds, ?_⟩
    · rw [List.map_cons, List.reverse_cons, List.append_assoc]
      rfl
    · rw [List.length_cons]
      show a.removals + 1 + l.length = a.removals + (l.length + 1)
      omega

end Arena

namespace Forest

variable {α : Type} {F G : Forest α} {n : NodeId}

/-! ## The names that calls hand out -/

namespace Call

/-- The call makes a node. -/
def isCreate : Call α → Bool
  | create _ => true
  | _ => false

/-- The name that the call answers with if it makes a node. -/
def handsOut (F : Forest α) : Call α → Option NodeId
  | create v =>
    match Forest.create v F with
    | .ok n _ => some n
    | .error _ _ => none
  | _ => none

end Call

/-- The names of the nodes that the calls make, in the order in which they are made. -/
def namesMade : Forest α → List (Call α) → List NodeId
  | _, [] => []
  | F, call :: calls => (call.handsOut F).toList ++ namesMade (F.after call) calls

/-- The number of nodes that the calls give up: by how much the forest shrinks, call by call. -/
def removedBy : Forest α → List (Call α) → Nat
  | _, [] => 0
  | F, call :: calls => F.size - (F.after call).size + removedBy (F.after call) calls

/-- A call that touches one value changes the nodes in place. -/
theorem exists_mapNamed_of_update {β : Type} {m : Edit α β} {k : NodeId} {f : α → α} {answer : Node α → β}
    (h : m F = match F.get? k with
      | none => .error (.tree (.nodeNotFound k)) F
      | some node =>
        .ok (answer node) (F.rewire fun m node => if m = k then { node with value := f node.value } else node)) :
    ∃ f, (m.final F).nodes = F.nodes.mapNamed f := by
  cases hk : F.get? k with
  | none =>
    simp only [hk] at h
    rw [Edit.final, h]
    exact ⟨fun _ node => node, (Arena.mapNamed_eq_self fun _ _ _ => rfl).symm⟩
  | some node =>
    simp only [hk] at h
    rw [Edit.final_of_ok h]
    exact ⟨_, rfl⟩

/-- A call that touches links only changes the nodes in place. -/
theorem exists_mapNamed_of_relinks {β : Type} {call : Call α} {m : Edit α β} (hedit : call.edit = Functor.discard m)
    (hm : m.Relinks) : ∃ f, (F.after call).nodes = F.nodes.mapNamed f := by
  obtain ⟨f, -, hnodes⟩ := hm F
  rw [after_eq_final call hedit]
  exact ⟨f, hnodes⟩

/-- **A call that neither makes a node nor gives one up changes the nodes in place.** -/
theorem exists_mapNamed_after {call : Call α} (hcreate : call.isCreate = false) (hkeep : ∀ m, call ≠ .discard m) :
    ∃ f, (F.after call).nodes = F.nodes.mapNamed f := by
  cases call with
  | create v => cases hcreate
  | setValue k v =>
    rw [after_eq_final (.setValue k v) rfl]
    exact exists_mapNamed_of_update (f := fun _ => v) (setValue_eq k v)
  | modifyValue k f =>
    rw [after_eq_final (.modifyValue k f) rfl]
    exact exists_mapNamed_of_update (modifyValue_eq k f)
  | insert p i c => exact exists_mapNamed_of_relinks rfl (relinks_insert p i c)
  | add p c => exact exists_mapNamed_of_relinks rfl (relinks_add p c)
  | removeAt p i => exact exists_mapNamed_of_relinks rfl (relinks_removeAt p i)
  | removeChild p c => exact exists_mapNamed_of_relinks rfl (relinks_removeChild p c)
  | removeAll p => exact exists_mapNamed_of_relinks rfl (relinks_removeAll p)
  | detach k => exact exists_mapNamed_of_relinks rfl (relinks_detach k)
  | discard m => exact absurd rfl (hkeep m)

/-- The names to come stay what they are. -/
theorem upcoming_after {call : Call α} (hcreate : call.isCreate = false) (hkeep : ∀ m, call ≠ .discard m) (k : Nat) :
    (F.after call).nodes.upcoming k = F.nodes.upcoming k := by
  obtain ⟨f, hnodes⟩ := exists_mapNamed_after hcreate hkeep
  rw [hnodes, Arena.upcoming_mapNamed]

theorem handsOut_of_not_isCreate {call : Call α} (hcreate : call.isCreate = false) : call.handsOut F = none := by
  cases call with
  | create v => cases hcreate
  | setValue | modifyValue | insert | add | removeAt | removeChild | removeAll | detach | discard => rfl

/-- **Calls that give no node up hand out the names to come**, whatever else they do in between. -/
theorem namesMade_eq (calls : List (Call α)) (hkeep : ∀ m, Call.discard m ∉ calls) :
    F.namesMade calls = F.nodes.upcoming (calls.countP Call.isCreate) := by
  induction calls generalizing F with
  | nil => rfl
  | cons call calls ih =>
    have hlater := ih (F := F.after call) fun m hm => hkeep m (List.mem_cons_of_mem _ hm)
    rw [namesMade, hlater]
    cases hcreate : call.isCreate with
    | true =>
      cases call with
      | create v =>
        rw [List.countP_cons_of_pos hcreate, Arena.upcoming_insert F.nodes ⟨v, none, []⟩]
        rfl
      | setValue | modifyValue | insert | add | removeAt | removeChild | removeAll | detach | discard =>
        cases hcreate
    | false =>
      have hfirst : ∀ m, call ≠ .discard m := by
        rintro m rfl
        exact hkeep m (List.mem_cons_self ..)
      rw [List.countP_cons_of_neg (by simp [hcreate]), handsOut_of_not_isCreate hcreate,
        upcoming_after hcreate hfirst]
      rfl

/-! ## The nodes that have been given up -/

/-- The nodes of a subtree, as they are released. -/
theorem WellFormed.released_prune (hF : F.WellFormed) (hn : F.contains n = true) :
    (F.shape n).postorder.reverse.Nodup ∧ ∀ x ∈ (F.shape n).postorder.reverse, F.nodes.contains x = true := by
  have hperm := (List.reverse_perm _).trans (F.shape n).postorder_perm_preorder
  exact ⟨hperm.nodup_iff.2 (hF.nodup_preorder_shape hn), fun x hx =>
    hF.contains_of_mem_shape hn (hperm.mem_iff.1 hx)⟩

/-- Taking a subtree out of the forest counts each of its nodes, and they are as many as the forest shrinks by. -/
theorem WellFormed.removals_prune (hF : F.WellFormed) (hn : F.contains n = true) :
    (F.prune n).nodes.removals = F.nodes.removals + (F.size - (F.prune n).size) := by
  obtain ⟨hnodup, hlive⟩ := hF.released_prune hn
  have hsize := hF.sound.size_eraseAll hnodup hlive
  have hremovals := (Arena.free_eraseAll hnodup hlive).2.2
  show (F.nodes.eraseAll _).removals = F.nodes.removals + (F.nodes.size - (F.nodes.eraseAll _).size)
  omega

theorem Relinked.removals_eq (h : Relinked F G) : G.nodes.removals = F.nodes.removals := by
  obtain ⟨f, -, hnodes⟩ := h
  rw [hnodes]
  rfl

/-- **The counter of the arena moves by the number of nodes given up.** -/
theorem Effect.removals_eq {k : Nat} (h : Effect F k G) (hF : F.WellFormed) :
    G.nodes.removals = F.nodes.removals + (F.size - G.size) := by
  cases h with
  | still => simp
  | grown v =>
    have hsize : (F.grown v).size = F.size + 1 := Arena.size_insert F.nodes _
    have hremovals : (F.grown v).nodes.removals = F.nodes.removals := Arena.removals_insert F.nodes _
    rw [hsize, hremovals]
    omega
  | revalued | moved | taken => exact (Nat.sub_self F.size).symm ▸ rfl
  | emptied l =>
    have hlinks := relinked_cutAll l F
    rw [hlinks.removals_eq, hlinks.size_eq, Nat.sub_self, Nat.add_zero]
  | dropped hn _ => exact hF.removals_prune hn
  | @discarded n hn => exact (hF.cut n).bumped.removals_prune (by rwa [contains_bumped, contains_cut])

/-- Over a whole run they add up. -/
theorem WellFormed.removals_afterAll (hF : F.WellFormed) (calls : List (Call α)) :
    (F.afterAll calls).nodes.removals = F.nodes.removals + F.removedBy calls := by
  induction calls generalizing F with
  | nil => rfl
  | cons call calls ih =>
    have hstep := (hF.effect_after call).removals_eq hF
    have hlater := ih (hF.after call)
    show ((F.after call).afterAll calls).nodes.removals = _
    rw [hlater, hstep, removedBy, Nat.add_assoc]

/-! ## Giving up a subtree -/

/-- **The free list after a subtree is given up.** -/
theorem WellFormed.free_of_discard (hF : F.WellFormed) (hn : F.contains n = true) :
    (F.after (.discard n)).nodes.free = (F.shape n).postorder.map NodeId.slot ++ F.nodes.free ∧
      (F.after (.discard n)).nodes.cells.size = F.nodes.cells.size := by
  obtain ⟨hnodup, hlive⟩ := (hF.cut n).released_prune (by rwa [contains_cut] : (F.cut n).contains n = true)
  obtain ⟨hfree, hsize, -⟩ := Arena.free_eraseAll hnodup hlive
  rw [hF.nodes_after_discard hn]
  constructor
  · calc ((F.cut n).prune n).nodes.free
        = (((F.cut n).shape n).postorder.reverse.map NodeId.slot).reverse ++ F.nodes.free := hfree
      _ = (F.shape n).postorder.map NodeId.slot ++ F.nodes.free := by
          rw [List.map_reverse, List.reverse_reverse, hF.shape_cut hn]
  · exact hsize.trans Array.size_mapIdx

/-- **The slots of a subtree are used again in postorder.** Let a node be given up after some history of calls. Whatever
    calls follow, as long as none of them gives up a node, the nodes that they make take the slots of the subtree in its
    postorder, then the slots that were free before in the order in which they would have been used without the release,
    and then new ones in ascending order. The generation of their names is the number of nodes that have been given up
    in the whole history. -/
theorem slots_after_discard (history : List (Call α)) (hn : ((empty : Forest α).afterAll history).contains n = true) :
    let F := (empty : Forest α).afterAll history
    let G := F.after (.discard n)
    ∃ nodes, F.postorder n = .ok nodes ∧ discard n F = .ok nodes.length G ∧ F.nodes.free.Nodup ∧
      (∀ slot, slot ∈ F.nodes.free ↔ slot < F.nodes.cells.size ∧ ∀ x, F.contains x = true → x.slot ≠ slot) ∧
      ∀ calls, (∀ m, Call.discard m ∉ calls) →
        let count := calls.countP Call.isCreate
        let grown := List.range' F.nodes.cells.size count
        G.namesMade calls = ((nodes.map NodeId.slot ++ F.nodes.free ++ grown).take count).map
          (⟨·, (empty : Forest α).removedBy (history ++ [.discard n])⟩) ∧
        F.namesMade calls = ((F.nodes.free ++ grown).take count).map
          (⟨·, (empty : Forest α).removedBy history⟩) := by
  intro F G
  have hF : F.WellFormed := WellFormed.empty.afterAll history
  obtain ⟨H, hdiscard, -⟩ := hF.exists_discard hn
  have hG : G = H := by
    rw [← Edit.final_of_ok hdiscard]
    exact after_eq_final (.discard n) rfl
  have hcounted : ∀ calls, (empty : Forest α).removedBy calls = ((empty : Forest α).afterAll calls).nodes.removals := by
    intro calls
    rw [WellFormed.empty.removals_afterAll]
    exact (Nat.zero_add _).symm
  have hlast : (empty : Forest α).afterAll (history ++ [.discard n]) = G := by
    rw [afterAll, List.foldl_append]
    rfl
  obtain ⟨hfree, hsize⟩ := hF.free_of_discard hn
  refine ⟨_, (postorder_eq hF hn).1, ?_, hF.sound.free_nodup, hF.sound.mem_free_iff_unused, ?_⟩
  · rw [hdiscard, hG, (F.shape n).postorder_perm_preorder.length_eq]
  · intro calls hkeep count grown
    constructor
    · rw [namesMade_eq calls hkeep, hcounted, hlast, Arena.upcoming, hfree, hsize]
    · rw [namesMade_eq calls hkeep, hcounted, Arena.upcoming]

/-- Three nodes one below the other in four slots. The lower two are given up, and four nodes are made: the first two
    take the slots of the subtree from below, the third the slot that was free, and the fourth a new one. -/
theorem slots_after_discard_of_chain :
    let history : List (Call Nat) := [.create 7, .create 8, .create 9, .add ⟨0, 0⟩ ⟨1, 0⟩, .add ⟨1, 0⟩ ⟨2, 0⟩]
    let F := (empty : Forest Nat).afterAll history
    F.contains ⟨1, 0⟩ = true ∧
      (F.after (.discard ⟨1, 0⟩)).namesMade [.create 5, .create 4, .setValue ⟨0, 0⟩ 6, .create 3, .create 2]
        = [⟨2, 2⟩, ⟨1, 2⟩, ⟨3, 2⟩, ⟨4, 2⟩] := by
  intro history F
  have hn : F.contains ⟨1, 0⟩ = true := by decide
  obtain ⟨nodes, hnodes, -, -, -, hmade⟩ := slots_after_discard history hn
  obtain rfl : nodes = [⟨2, 0⟩, ⟨1, 0⟩] := Except.ok.inj (hnodes.symm.trans rfl)
  refine ⟨hn, ?_⟩
  exact (hmade [.create 5, .create 4, .setValue ⟨0, 0⟩ 6, .create 3, .create 2] (by simp)).1.trans rfl

end Forest

end Grove
