import Grove.Proofs.Forest.Relinked
import Grove.Proofs.Forest.Runs

/-!
# `Proofs.Forest.Names` — a name means one node for good

A name is handed out when a node is made. From then on it leads to that node, with the value that was last put
there, until a call gives the node up, alone or with a subtree to which it belongs; after that it leads nowhere,
whatever becomes of its slot (`name_permanent`). Values are of any type, such as marks by which nodes are told apart,
so that the value found shows which node is found.

While the node is there, one call changes its value as the call says (`value_after`) or gives it up, which leaves
the name spent (`spent_after`). A spent name stays spent (`Effect.spent`): the only call that makes names is the one
that makes nodes, and its names are younger.
-/

namespace Grove.Forest

variable {α : Type} {F G : Forest α} {n : NodeId} {call : Call α}

open Edit

/-! ## What a call is about -/

namespace Call

/-- The names that a call is given, in the order in which they are looked up. -/
def names : Call α → List NodeId
  | create _ => []
  | setValue n _ | modifyValue n _ | removeAt n _ | removeAll n | detach n | discard n => [n]
  | insert p _ c | add p c => [p, c]
  | removeChild p c => [c, p]

/-- The value of the node named `n` after the call, as long as the node is there. -/
def stored (n : NodeId) (old : α) : Call α → α
  | setValue m v => if m = n then v else old
  | modifyValue m f => if m = n then f old else old
  | _ => old

/-- The call gives up a subtree to which `n` belongs. -/
def GivesUp (F : Forest α) (n : NodeId) : Call α → Prop
  | discard m => F.contains m = true ∧ F.Ancestor m n
  | _ => False

end Call

/-- One of the calls, made on `F` one after the other, gives up a subtree to which `n` belongs. -/
def GivenUp (n : NodeId) : Forest α → List (Call α) → Prop
  | _, [] => False
  | F, call :: calls => call.GivesUp F n ∨ GivenUp n (F.after call) calls

/-- The value last put into the node named `n`: the one it was made with, as the calls have changed it. -/
def lastStored (n : NodeId) (made : α) (calls : List (Call α)) : α :=
  calls.foldl (Call.stored n) made

/-! ## Names that do not resolve -/

section

variable {β : Type} {m : Edit α β}

theorem edit_eq_error_iff (call : Call α) (hedit : call.edit = Functor.discard m) {failure : Failure} :
    call.edit F = .error failure G ↔ m F = .error failure G := by
  rw [hedit]
  simp only [Functor.discard, Functor.mapConst, EStateM.map, Function.comp]
  cases m F <;> simp

theorem after_eq_final (call : Call α) (hedit : call.edit = Functor.discard m) : F.after call = m.final F := by
  rw [after, hedit, final]
  simp only [Functor.discard, Functor.mapConst, EStateM.map, Function.comp]
  cases m F <;> rfl

/-- A check of a name, before what is left to check. -/
theorem notFound_iff_of_check {r : EStateM.Result Failure (Forest α) β} {p : NodeId} {rest : List NodeId}
    (hrest : r = .error (.tree (.nodeNotFound n)) G ↔ rest.find? (!F.contains ·) = some n ∧ G = F) :
    (if F.contains p = false then .error (.tree (.nodeNotFound p)) F else r) = .error (.tree (.nodeNotFound n)) G
      ↔ (p :: rest).find? (!F.contains ·) = some n ∧ G = F := by
  by_cases hp : F.contains p = false
  · simp [hp, eq_comm]
  · rw [if_neg hp, hrest, List.find?_cons_of_neg (by simpa using hp)]

end

/-- A call on one node that first looks the node up. -/
theorem notFound_iff_of_lookup {β : Type} {m : Edit α β} {k : NodeId} {answer : Node α → β}
    {next : Node α → Forest α}
    (h : m F = match F.get? k with
      | none => .error (.tree (.nodeNotFound k)) F
      | some node => .ok (answer node) (next node)) :
    m F = .error (.tree (.nodeNotFound n)) G ↔ [k].find? (!F.contains ·) = some n ∧ G = F := by
  cases hk : F.get? k with
  | none =>
    simp only [hk] at h
    simp [h, get?_eq_none_iff.1 hk, eq_comm]
  | some node =>
    simp only [hk] at h
    simp [h, contains_of_get? hk]

/-- **A call fails to find a name exactly if it is the first of its names that does not resolve**, and then leaves
    the forest as it is. -/
theorem WellFormed.edit_eq_notFound_iff (hF : F.WellFormed) (call : Call α) (n : NodeId) (G : Forest α) :
    call.edit F = .error (.tree (.nodeNotFound n)) G
      ↔ call.names.find? (!F.contains ·) = some n ∧ G = F := by
  cases call with
  | create v => simp [edit_eq_error_iff (.create v) rfl, create_eq, Call.names]
  | setValue k v => exact (edit_eq_error_iff _ rfl).trans (notFound_iff_of_lookup (setValue_eq k v))
  | modifyValue k f => exact (edit_eq_error_iff _ rfl).trans (notFound_iff_of_lookup (modifyValue_eq k f))
  | insert p i c =>
    rw [edit_eq_error_iff _ rfl, hF.insert_eq]
    refine notFound_iff_of_check (notFound_iff_of_check ?_)
    by_cases hcycle : c ∈ F.chain p
    · simp [hcycle]
    by_cases hlen : ((F.childrenOf p).erase c).length < i
    · simp [hcycle, hlen]
    · simp [hcycle, hlen]
  | add p c =>
    rw [edit_eq_error_iff _ rfl, hF.add_eq]
    refine notFound_iff_of_check (notFound_iff_of_check ?_)
    by_cases hcycle : c ∈ F.chain p
    · simp [hcycle]
    · simp [hcycle]
  | removeAt p i =>
    rw [edit_eq_error_iff _ rfl, hF.removeAt_eq]
    refine notFound_iff_of_check ?_
    cases (F.childrenOf p)[i]? <;> simp
  | removeChild p c =>
    rw [edit_eq_error_iff _ rfl, hF.removeChild_eq]
    refine notFound_iff_of_check (notFound_iff_of_check ?_)
    by_cases hlisted : c ∈ F.childrenOf p
    · simp [hlisted]
    · simp [hlisted]
  | removeAll p =>
    rw [edit_eq_error_iff _ rfl, hF.removeAll_eq]
    exact notFound_iff_of_check (by simp)
  | detach k =>
    rw [edit_eq_error_iff _ rfl, hF.detach_eq]
    refine notFound_iff_of_check ?_
    by_cases hroot : F.parentOf k = none
    · simp [hroot]
    · simp [hroot]
  | discard k =>
    rw [edit_eq_error_iff _ rfl, hF.discard_eq]
    refine notFound_iff_of_check ?_
    by_cases hroot : F.parentOf k = none
    · simp [hroot]
    · simp [hroot]

/-! ## A node that is there -/

/-- A call on one node that changes its value. -/
theorem value_of_update {β : Type} {m : Edit α β} {k : NodeId} {f : α → α} {answer : Node α → β}
    (h : m F = match F.get? k with
      | none => .error (.tree (.nodeNotFound k)) F
      | some node =>
        .ok (answer node) (F.rewire fun m node => if m = k then { node with value := f node.value } else node))
    (hn : F.contains n = true) :
    ((m.final F).get? n).map Node.value
      = ((F.get? n).map Node.value).map fun old => if k = n then f old else old := by
  obtain ⟨node, hnode⟩ := contains_iff.1 hn
  cases hk : F.get? k with
  | none =>
    simp only [hk] at h
    have hne : k ≠ n := by
      rintro rfl
      rw [hnode] at hk
      cases hk
    rw [final, h]
    simp [hne, Function.comp_def]
  | some found =>
    simp only [hk] at h
    rw [final_of_ok h, get?_rewire, hnode]
    by_cases hne : n = k
    · simp [hne]
    · simp [hne, Ne.symm hne]

/-- Giving up a subtree that is there cuts it and takes out its nodes. -/
theorem WellFormed.nodes_after_discard (hF : F.WellFormed) {m : NodeId} (hm : F.contains m = true) :
    (F.after (.discard m)).nodes = ((F.cut m).prune m).nodes := by
  obtain ⟨G, hdiscard, hnodes, -⟩ := hF.exists_discard hm
  rw [after_eq_final (.discard m) rfl, final_of_ok hdiscard, hnodes]

/-- A call that touches links only keeps the values. -/
theorem value_of_relinks {β : Type} {m : Edit α β} (hedit : call.edit = Functor.discard m) (hm : m.Relinks) :
    ((F.after call).get? n).map Node.value = ((F.get? n).map Node.value).map id := by
  rw [after_eq_final call hedit, (hm F).value_eq, Option.map_id]
  rfl

namespace WellFormed

/-- **A call changes the value of a node as it says**, unless it gives the node up. -/
theorem value_after (hF : F.WellFormed) (hn : F.contains n = true) (hkeep : ¬ call.GivesUp F n) :
    ((F.after call).get? n).map Node.value = ((F.get? n).map Node.value).map fun old => call.stored n old := by
  cases call with
  | create v =>
    -- the new node has a name of its own
    have hne : n ≠ (F.nodes.insert ⟨v, none, []⟩).1 := by
      rintro rfl
      rw [← Bool.not_eq_false, ← get?_eq_none_iff] at hn
      exact hn (hF.sound.get?_insert_new _)
    show ((F.grown v).get? n).map Node.value = ((F.get? n).map Node.value).map id
    rw [get?_grown hF, if_neg hne, Option.map_id]
    rfl
  | setValue k v =>
    rw [after_eq_final (.setValue k v) rfl]
    exact value_of_update (f := fun _ => v) (setValue_eq k v) hn
  | modifyValue k f =>
    rw [after_eq_final (.modifyValue k f) rfl]
    exact value_of_update (modifyValue_eq k f) hn
  | insert p i c => exact value_of_relinks rfl (relinks_insert p i c)
  | add p c => exact value_of_relinks rfl (relinks_add p c)
  | removeAt p i => exact value_of_relinks rfl (relinks_removeAt p i)
  | removeChild p c => exact value_of_relinks rfl (relinks_removeChild p c)
  | removeAll p => exact value_of_relinks rfl (relinks_removeAll p)
  | detach k => exact value_of_relinks rfl (relinks_detach k)
  | discard m =>
    show ((F.after (.discard m)).get? n).map Node.value = ((F.get? n).map Node.value).map id
    rw [Option.map_id]
    by_cases hm : F.contains m = true
    · have hout : n ∉ (F.shape m).preorder := by
        rw [hF.mem_preorder_shape_iff hm]
        exact fun hup => hkeep ⟨hm, hup⟩
      rw [hF.get?_of_discard hm (hF.nodes_after_discard hm), if_neg hout, (Relinked.cut m F).value_eq]
      rfl
    · rw [Bool.not_eq_true] at hm
      have heq := hF.discard_eq m
      rw [if_pos hm] at heq
      rw [after_eq_final (.discard m) rfl, final, heq]
      rfl

/-- **A node that is given up leaves its name spent.** -/
theorem spent_after (hF : F.WellFormed) (hn : F.contains n = true) (hup : call.GivesUp F n) :
    (F.after call).nodes.Spent n := by
  cases call with
  | discard m =>
    obtain ⟨hm, habove⟩ := hup
    rw [hF.nodes_after_discard hm]
    rw [← contains_cut m] at hn
    obtain ⟨node, hnode⟩ := contains_iff.1 hn
    refine (hF.cut m).sound.spent_eraseAll hnode ?_
    rw [List.mem_reverse, Tree.mem_postorder_iff, hF.shape_cut hm]
    exact (hF.mem_preorder_shape_iff hm).2 habove
  | create | setValue | modifyValue | insert | add | removeAt | removeChild | removeAll | detach => cases hup

end WellFormed

/-! ## A name that is spent -/

theorem spent_cutAll (hn : F.nodes.Spent n) (l : List NodeId) : (F.cutAll l).nodes.Spent n := by
  induction l with
  | nil => exact hn
  | cons c l ih => exact ih.mapNamed _

/-- **A spent name stays spent.** -/
theorem Effect.spent {k : Nat} (h : Effect F k G) (hF : F.WellFormed) (hn : F.nodes.Spent n) :
    G.nodes.Spent n := by
  cases h with
  | still => exact hn
  | grown v => exact hn.insert hF.sound _
  | revalued f => exact hn.mapNamed _
  | moved => exact (hn.mapNamed _).mapNamed _
  | taken c => exact hn.mapNamed _
  | emptied l => exact spent_cutAll hn l
  | dropped => exact hn.eraseAll _
  | discarded => exact (hn.mapNamed _).eraseAll _

namespace WellFormed

theorem spent_afterAll (hF : F.WellFormed) (hn : F.nodes.Spent n) (calls : List (Call α)) :
    (F.afterAll calls).nodes.Spent n := by
  induction calls generalizing F with
  | nil => exact hn
  | cons call calls ih => exact ih (hF.after call) ((hF.effect_after call).spent hF hn)

/-! ## Runs -/

/-- After a run that does not give a node up, it has the value last stored. -/
theorem value_afterAll (hF : F.WellFormed) {v : α} (hn : (F.get? n).map Node.value = some v)
    (calls : List (Call α)) (hkeep : ¬ GivenUp n F calls) :
    ((F.afterAll calls).get? n).map Node.value = some (lastStored n v calls) := by
  induction calls generalizing F v with
  | nil => exact hn
  | cons call calls ih =>
    obtain ⟨hfirst, hrest⟩ := not_or.1 hkeep
    have hlive : F.contains n = true := by
      obtain ⟨node, hnode, -⟩ := Option.map_eq_some_iff.1 hn
      exact contains_of_get? hnode
    have hstep := hF.value_after hlive hfirst
    rw [hn] at hstep
    exact ih (hF.after call) hstep hrest

/-- After a run that gives a node up, its name is spent. -/
theorem spent_of_givenUp (hF : F.WellFormed) (hn : F.contains n = true) (calls : List (Call α))
    (hup : GivenUp n F calls) : (F.afterAll calls).nodes.Spent n := by
  induction calls generalizing F with
  | nil => cases hup
  | cons call calls ih =>
    by_cases hfirst : call.GivesUp F n
    · exact (hF.after call).spent_afterAll (hF.spent_after hn hfirst) calls
    · have hvalue := hF.value_after hn hfirst
      obtain ⟨node, hnode⟩ := contains_iff.1 hn
      rw [hnode, Option.map_some, Option.map_some] at hvalue
      obtain ⟨node', hnode', -⟩ := Option.map_eq_some_iff.1 hvalue
      exact ih (hF.after call) (contains_of_get? hnode') (hup.resolve_left hfirst)

end WellFormed

/-- A node just made is there, with its value. -/
theorem value_of_create (hF : F.WellFormed) {v : α} (hmade : create v F = .ok n G) :
    G.WellFormed ∧ (G.get? n).map Node.value = some v := by
  rw [create_eq] at hmade
  cases hmade
  refine ⟨(Effect.grown v).wellFormed hF, ?_⟩
  rw [get?_grown hF, if_pos rfl]
  rfl

/-- A name has been handed out, and no name to come is the same: it resolves, or it is spent. -/
theorem ne_of_create (hF : F.WellFormed) (hn : F.contains n = true ∨ F.nodes.Spent n) {v : α} {m : NodeId}
    (hmade : create v F = .ok m G) : m ≠ n ∧ n.generation ≤ F.nodes.removals ∧ m.generation = F.nodes.removals := by
  rw [create_eq] at hmade
  cases hmade
  have hgeneration := Arena.generation_insert F.nodes (⟨v, none, []⟩ : Node α)
  rcases hn with hn | hn
  · obtain ⟨node, hnode⟩ := contains_iff.1 hn
    refine ⟨?_, hF.sound.generation_le n node hnode, hgeneration⟩
    rintro rfl
    exact absurd ((hF.sound.get?_insert_new _).symm.trans hnode) nofun
  · exact ⟨(hn.ne_insert _).symm, Nat.le_of_lt hn.2, hgeneration⟩

/-- A name that leads to a value, asked in each way. -/
theorem resolves_of_value {v : α} (h : (F.get? n).map Node.value = some v) :
    F.contains n = true ∧ F.value n = .ok v ∧
      (∃ node, F.get? n = some node ∧ F.lookup n = .ok node ∧ node.value = v) ∧
      ∀ w, ∃ K, setValue n w F = .ok v K ∧ K.value n = .ok w := by
  obtain ⟨node, hnode, rfl⟩ := Option.map_eq_some_iff.1 h
  have hlookup := lookup_eq_ok_iff.2 hnode
  refine ⟨contains_of_get? hnode, by rw [value, hlookup]; rfl, ⟨node, hnode, hlookup, rfl⟩, fun w => ?_⟩
  have hset := setValue_eq n w (F := F)
  simp only [hnode] at hset
  refine ⟨_, hset, ?_⟩
  rw [value, lookup, get?_rewire, hnode, Option.map_some, if_pos rfl]
  rfl

/-- A name that leads nowhere, asked in each way. -/
theorem notFound_of_get? (h : F.get? n = none) :
    F.contains n = false ∧ F.value n = .error (.tree (.nodeNotFound n)) ∧ F.get? n = none ∧
      F.lookup n = .error (.tree (.nodeNotFound n)) ∧
      ∀ w, setValue n w F = .error (.tree (.nodeNotFound n)) F := by
  have hlookup : F.lookup n = .error (.tree (.nodeNotFound n)) := lookup_eq_error_iff.2 ⟨h, rfl⟩
  refine ⟨get?_eq_none_iff.1 h, by rw [value, hlookup]; rfl, h, hlookup, fun w => ?_⟩
  have hset := setValue_eq n w (F := F)
  rwa [h] at hset

/-- **A name means one node for good.** Let `n` be the name of a node just made, and let calls follow, whatever they
    are. No node made after them gets this name again, and as long as the removals can be counted in 64 bits this
    is so too where generations are cut to 64 bits. While no call gives the node up, the name leads to it, with the
    value last stored, and from then on it is not found. A call finds a name missing exactly if it is the first of
    those given to it that does not resolve. -/
theorem name_permanent (hF : F.Reachable) {v : α} (hmade : create v F = .ok n G) (calls : List (Call α)) :
    let H := G.afterAll calls
    (∀ w m K, create w H = .ok m K → m ≠ n ∧
      (H.nodes.removals < UInt64.size →
        (m.slot, UInt64.ofNat m.generation) ≠ (n.slot, UInt64.ofNat n.generation))) ∧
    (¬ GivenUp n G calls →
      H.contains n = true ∧ H.value n = .ok (lastStored n v calls) ∧
      (∃ node, H.get? n = some node ∧ H.lookup n = .ok node ∧ node.value = lastStored n v calls) ∧
      ∀ w, ∃ K, setValue n w H = .ok (lastStored n v calls) K ∧ K.value n = .ok w) ∧
    (GivenUp n G calls →
      H.contains n = false ∧ H.value n = .error (.tree (.nodeNotFound n)) ∧ H.get? n = none ∧
      H.lookup n = .error (.tree (.nodeNotFound n)) ∧
      ∀ w, setValue n w H = .error (.tree (.nodeNotFound n)) H) ∧
    ∀ (call : Call α) m K, call.edit H = .error (.tree (.nodeNotFound m)) K
      ↔ call.names.find? (!H.contains ·) = some m ∧ K = H := by
  intro H
  obtain ⟨hG, hvalue⟩ := value_of_create hF.wellFormed hmade
  have hH : H.WellFormed := hG.afterAll calls
  have hlive : G.contains n = true := by
    obtain ⟨node, hnode, -⟩ := Option.map_eq_some_iff.1 hvalue
    exact contains_of_get? hnode
  have hkept : ¬ GivenUp n G calls → (H.get? n).map Node.value = some (lastStored n v calls) :=
    hG.value_afterAll hvalue calls
  have hspent : GivenUp n G calls → H.nodes.Spent n := hG.spent_of_givenUp hlive calls
  refine ⟨?_, ?_, ?_, fun call m K => hH.edit_eq_notFound_iff call m K⟩
  · intro w m K hnew
    have hn : H.contains n = true ∨ H.nodes.Spent n := by
      by_cases hup : GivenUp n G calls
      · exact .inr (hspent hup)
      · exact .inl (resolves_of_value (hkept hup)).1
    obtain ⟨hne, hold, hyoung⟩ := ne_of_create hH hn hnew
    refine ⟨hne, fun hsmall heq => hne ?_⟩
    -- readings of the counter that fit in a word are equal as soon as their words are
    obtain ⟨hslot, hword⟩ := Prod.mk.inj heq
    have hgeneration := congrArg UInt64.toNat hword
    rw [UInt64.toNat_ofNat_of_lt' (by omega), UInt64.toNat_ofNat_of_lt' (by omega)] at hgeneration
    cases m
    cases n
    simp_all
  · exact fun hkeep => resolves_of_value (hkept hkeep)
  · exact fun hup => notFound_of_get? (hspent hup).1

theorem name_permanent_of_reuse :
    let F : Forest Nat := empty
    let G := F.after (.create 7)
    F.Reachable ∧ create 7 F = .ok ⟨0, 0⟩ G ∧
      (G.afterAll [.create 8, .setValue ⟨0, 0⟩ 6]).value ⟨0, 0⟩ = .ok 6 ∧
      (G.afterAll [.discard ⟨0, 0⟩, .create 8]).contains ⟨0, 1⟩ = true ∧
      (G.afterAll [.discard ⟨0, 0⟩, .create 8]).value ⟨0, 0⟩ = .error (.tree (.nodeNotFound ⟨0, 0⟩)) := by
  intro F G
  have hF : F.Reachable := ⟨[], rfl⟩
  have hmade : create 7 F = .ok ⟨0, 0⟩ G := rfl
  have hkeep : ¬ GivenUp ⟨0, 0⟩ G [.create 8, .setValue ⟨0, 0⟩ 6] := by simp [GivenUp, Call.GivesUp]
  have hup : GivenUp ⟨0, 0⟩ G [.discard ⟨0, 0⟩, .create 8] := .inl ⟨by decide, ancestor_refl _⟩
  refine ⟨hF, hmade, ?_, by decide, ?_⟩
  · exact ((name_permanent hF hmade _).2.1 hkeep).2.1
  · exact ((name_permanent hF hmade _).2.2.1 hup).2.1

end Grove.Forest
