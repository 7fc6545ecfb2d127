import Grove.Proofs.Forest.Discard

/-!
# `Proofs.Forest.Runs` — what holds after every sequence of calls

A `Call` is one request to change a forest, with whatever names and positions the caller has at hand. It leaves a
forest behind whether it is carried out or refused (`after`), and a forest is *reachable* if a sequence of calls
on the empty forest leaves it.

What a call can do to a well-formed forest is said once: it has one of eight effects, each of which comes with
the number of structural writes it counts (`effect_after`). Everything else is read off the effects: all of them
keep a forest well-formed (`WellFormed.after`), move its generation by their number (`generation_after`), and
leave all links as they are if that number is zero (`Effect.parentOf_eq`, `Effect.childrenOf_eq`).
-/

namespace Grove.Forest

variable {α : Type} {F G : Forest α}

open Edit

/-! ## Calls -/

/-- A request to change a forest. -/
inductive Call (α : Type) where
  | create (value : α)
  | setValue (n : NodeId) (value : α)
  | modifyValue (n : NodeId) (f : α → α)
  | insert (parent : NodeId) (index : Nat) (child : NodeId)
  | add (parent child : NodeId)
  | removeAt (parent : NodeId) (index : Nat)
  | removeChild (parent child : NodeId)
  | removeAll (parent : NodeId)
  | detach (n : NodeId)
  | discard (n : NodeId)

namespace Call

/-- The edit that is called for, without its answer. -/
def edit : Call α → Edit α Unit
  | create v => Functor.discard (Forest.create v)
  | setValue n v => Functor.discard (Forest.setValue n v)
  | modifyValue n f => Functor.discard (Forest.modifyValue n f)
  | insert p i c => Functor.discard (Forest.insert p i c)
  | add p c => Functor.discard (Forest.add p c)
  | removeAt p i => Functor.discard (Forest.removeAt p i)
  | removeChild p c => Functor.discard (Forest.removeChild p c)
  | removeAll p => Functor.discard (Forest.removeAll p)
  | detach n => Functor.discard (Forest.detach n)
  | discard n => Functor.discard (Forest.discard n)

/-- The call ends with a failure. -/
def Refused (F : Forest α) (call : Call α) : Prop :=
  ∃ failure G, call.edit F = .error failure G

/-- How many structural writes a call counts when it is carried out. Making a node and touching a value count
    none, each child taken from a node counts one, and giving up a subtree counts once more than taking it away. -/
def writes (F : Forest α) : Call α → Nat
  | create _ | setValue _ _ | modifyValue _ _ => 0
  | insert _ _ _ | add _ _ | removeAt _ _ | removeChild _ _ => 1
  | removeAll p => (F.childrenOf p).length
  | detach n => if F.parentOf n = none then 0 else 1
  | discard n => if F.parentOf n = none then 1 else 2

/-- How many structural writes a call counts; none if it is refused. -/
def bumps (F : Forest α) (call : Call α) : Nat :=
  match call.edit F with
  | .error _ _ => 0
  | .ok _ _ => call.writes F

/-- The call is one of those that change no links: it is refused, makes a node, touches a value, detaches a root
    or takes all children from a leaf. -/
def Quiet (F : Forest α) (call : Call α) : Prop :=
  call.Refused F ∨
    match call with
    | create _ | setValue _ _ | modifyValue _ _ => True
    | removeAll p => F.childrenOf p = []
    | detach n => F.parentOf n = none
    | insert _ _ _ | add _ _ | removeAt _ _ | removeChild _ _ | discard _ => False

/-- **A call counts no structural write exactly if it is quiet.** -/
theorem bumps_eq_zero_iff {call : Call α} : call.bumps F = 0 ↔ call.Quiet F := by
  unfold bumps Quiet Refused
  cases hedit : call.edit F with
  | error failure G => simp
  | ok answer G =>
    cases call with
    | create | setValue | modifyValue | insert | add | removeAt | removeChild => simp [writes]
    | removeAll p => simp [writes]
    | detach n => simp [writes]
    | discard n =>
      by_cases hroot : F.parentOf n = none
      · simp [writes, hroot]
      · simp [writes, hroot]

end Call

/-- The forest that a call leaves behind, carried out or refused. -/
def after (F : Forest α) (call : Call α) : Forest α :=
  match call.edit F with
  | .ok _ G => G
  | .error _ G => G

/-- The forest that a sequence of calls leaves behind. -/
def afterAll (F : Forest α) (calls : List (Call α)) : Forest α :=
  calls.foldl after F

/-- Some sequence of calls on the empty forest leaves `F` behind. -/
def Reachable (F : Forest α) : Prop :=
  ∃ calls, (empty : Forest α).afterAll calls = F

/-! ## Effects -/

/-- A new node, without parent and children. -/
def grown (v : α) (F : Forest α) : Forest α :=
  { F with nodes := (F.nodes.insert ⟨v, none, []⟩).2 }

/-- Every value changed, with the node's name at hand. -/
def revalued (f : NodeId → α → α) (F : Forest α) : Forest α :=
  F.rewire fun n node => { node with value := f n node.value }

/-- What a call can do to a forest, with the number of structural writes it counts. -/
inductive Effect (F : Forest α) : Nat → Forest α → Prop where
  | still : Effect F 0 F
  | grown (v : α) : Effect F 0 (F.grown v)
  | revalued (f : NodeId → α → α) : Effect F 0 (F.revalued f)
  | moved {p c : NodeId} {i : Nat} (hp : F.contains p = true) (hc : F.contains c = true)
      (hup : ¬ F.Ancestor c p) (hi : i ≤ ((F.childrenOf p).erase c).length) :
      Effect F 1 ((F.cut c).graft p i c).bumped
  | taken (c : NodeId) : Effect F 1 (F.cut c).bumped
  | emptied (l : List NodeId) : Effect F l.length (F.cutAll l)
  | dropped {n : NodeId} (hn : F.contains n = true) (hroot : F.parentOf n = none) :
      Effect F 1 (F.prune n).bumped
  | discarded {n : NodeId} (hn : F.contains n = true) : Effect F 2 ((F.cut n).bumped.prune n).bumped

/-! ## The effect of each call

Each call is followed through its edit's equation, check by check: a check that fails refuses the call, which is
then `still`, and after the last one the equation names the forest that comes out. -/

section

variable {β : Type} {call : Call α} {m : Edit α β}

theorem effect_of_ok (hedit : call.edit = Functor.discard m) {b : β} (h : m F = .ok b G)
    (heffect : Effect F (call.writes F) G) : Effect F (call.bumps F) (F.after call) := by
  have hcall : call.edit F = .ok () G := by
    rw [hedit]
    simp only [Functor.discard, Functor.mapConst, EStateM.map, Function.comp, h, Function.const_apply]
  simp only [Call.bumps, after, hcall]
  exact heffect

theorem effect_of_error (hedit : call.edit = Functor.discard m) {failure : Failure}
    (h : m F = .error failure F) : Effect F (call.bumps F) (F.after call) := by
  have hcall : call.edit F = .error failure F := by
    rw [hedit]
    simp only [Functor.discard, Functor.mapConst, EStateM.map, Function.comp, h]
  simp only [Call.bumps, after, hcall]
  exact .still

/-- Past a check one may rely on what was checked. -/
theorem effect_of_check (hedit : call.edit = Functor.discard m) {p : Prop} [Decidable p] {failure : Failure}
    {r : EStateM.Result Failure (Forest α) β} (h : m F = if p then .error failure F else r)
    (hrest : ¬ p → m F = r → Effect F (call.bumps F) (F.after call)) :
    Effect F (call.bumps F) (F.after call) := by
  by_cases hp : p
  · rw [if_pos hp] at h
    exact effect_of_error hedit h
  · rw [if_neg hp] at h
    exact hrest hp h

end

theorem create_eq (v : α) (F : Forest α) :
    create v F = .ok (F.nodes.insert ⟨v, none, []⟩).1 (F.grown v) := rfl

theorem rewire_value_eq (n : NodeId) (f : α → α) (F : Forest α) :
    F.rewire (fun m node => if m = n then { node with value := f node.value } else node)
      = F.revalued fun m old => if m = n then f old else old := by
  apply rewire_congr
  intro m node _
  by_cases hm : m = n
  · simp only [if_pos hm]
  · simp only [if_neg hm]

/-- An edit that changes the value of one node, if it is there, revalues the forest. -/
theorem effect_of_revalued {β : Type} {call : Call α} {m : Edit α β} (hedit : call.edit = Functor.discard m)
    (hwrites : call.writes F = 0) {n : NodeId} {f : α → α} {answer : Node α → β}
    (h : m F = match F.get? n with
      | none => .error (.tree (.nodeNotFound n)) F
      | some node =>
        .ok (answer node) (F.rewire fun m node => if m = n then { node with value := f node.value } else node)) :
    Effect F (call.bumps F) (F.after call) := by
  cases hn : F.get? n with
  | none =>
    rw [hn] at h
    exact effect_of_error hedit h
  | some node =>
    simp only [hn] at h
    rw [rewire_value_eq n f] at h
    exact effect_of_ok hedit h (hwrites ▸ .revalued _)

namespace WellFormed

theorem effect_insert (hF : F.WellFormed) (p c : NodeId) (i : Nat) :
    Effect F ((Call.insert p i c).bumps F) (F.after (.insert p i c)) := by
  apply effect_of_check rfl (hF.insert_eq p c i)
  intro hp heq
  apply effect_of_check rfl heq
  intro hc heq
  apply effect_of_check rfl heq
  intro hcycle heq
  apply effect_of_check rfl heq
  intro hlen heq
  rw [Bool.not_eq_false] at hp hc
  rw [hF.mem_chain_iff hp] at hcycle
  exact effect_of_ok rfl heq (.moved hp hc hcycle (Nat.not_lt.1 hlen))

theorem effect_add (hF : F.WellFormed) (p c : NodeId) :
    Effect F ((Call.add p c).bumps F) (F.after (.add p c)) := by
  apply effect_of_check rfl (hF.add_eq p c)
  intro hp heq
  apply effect_of_check rfl heq
  intro hc heq
  apply effect_of_check rfl heq
  intro hcycle heq
  rw [Bool.not_eq_false] at hp hc
  rw [hF.mem_chain_iff hp] at hcycle
  exact effect_of_ok rfl heq (.moved hp hc hcycle (Nat.le_refl _))

theorem effect_removeAt (hF : F.WellFormed) (p : NodeId) (i : Nat) :
    Effect F ((Call.removeAt p i).bumps F) (F.after (.removeAt p i)) := by
  apply effect_of_check rfl (hF.removeAt_eq p i)
  intro hp heq
  cases hi : (F.childrenOf p)[i]? with
  | none =>
    rw [hi] at heq
    exact effect_of_error rfl heq
  | some c =>
    rw [hi] at heq
    exact effect_of_ok rfl heq (.taken c)

theorem effect_removeChild (hF : F.WellFormed) (p c : NodeId) :
    Effect F ((Call.removeChild p c).bumps F) (F.after (.removeChild p c)) := by
  apply effect_of_check rfl (hF.removeChild_eq p c)
  intro hc heq
  apply effect_of_check rfl heq
  intro hp heq
  by_cases hlisted : c ∈ F.childrenOf p
  · rw [if_pos hlisted] at heq
    exact effect_of_ok rfl heq (.taken c)
  · rw [if_neg hlisted] at heq
    exact effect_of_error rfl heq

theorem effect_removeAll (hF : F.WellFormed) (p : NodeId) :
    Effect F ((Call.removeAll p).bumps F) (F.after (.removeAll p)) := by
  apply effect_of_check rfl (hF.removeAll_eq p)
  intro hp heq
  exact effect_of_ok rfl heq (.emptied (F.childrenOf p))

theorem effect_detach (hF : F.WellFormed) (n : NodeId) :
    Effect F ((Call.detach n).bumps F) (F.after (.detach n)) := by
  apply effect_of_check rfl (hF.detach_eq n)
  intro hn heq
  by_cases hroot : F.parentOf n = none
  · rw [if_pos hroot] at heq
    have hwrites : (Call.detach n).writes F = 0 := if_pos hroot
    exact effect_of_ok rfl heq (hwrites ▸ .still)
  · rw [if_neg hroot] at heq
    have hwrites : (Call.detach n).writes F = 1 := if_neg hroot
    exact effect_of_ok rfl heq (hwrites ▸ .taken n)

theorem effect_discard (hF : F.WellFormed) (n : NodeId) :
    Effect F ((Call.discard n).bumps F) (F.after (.discard n)) := by
  apply effect_of_check rfl (hF.discard_eq n)
  intro hn heq
  rw [Bool.not_eq_false] at hn
  by_cases hroot : F.parentOf n = none
  · rw [if_pos hroot] at heq
    have hwrites : (Call.discard n).writes F = 1 := if_pos hroot
    exact effect_of_ok rfl heq (hwrites ▸ .dropped hn hroot)
  · rw [if_neg hroot] at heq
    have hwrites : (Call.discard n).writes F = 2 := if_neg hroot
    exact effect_of_ok rfl heq (hwrites ▸ .discarded hn)

/-- **Every call has one of the effects.** -/
theorem effect_after (hF : F.WellFormed) (call : Call α) : Effect F (call.bumps F) (F.after call) := by
  cases call with
  | create v => exact effect_of_ok rfl (create_eq v F) (.grown v)
  | setValue n v => exact effect_of_revalued (f := fun _ => v) rfl rfl (setValue_eq n v)
  | modifyValue n f => exact effect_of_revalued rfl rfl (modifyValue_eq n f)
  | insert p i c => exact hF.effect_insert p c i
  | add p c => exact hF.effect_add p c
  | removeAt p i => exact hF.effect_removeAt p i
  | removeChild p c => exact hF.effect_removeChild p c
  | removeAll p => exact hF.effect_removeAll p
  | detach n => exact hF.effect_detach n
  | discard n => exact hF.effect_discard n

end WellFormed

/-! ## What the effects keep -/

theorem get?_grown (hF : F.WellFormed) (v : α) (n : NodeId) :
    (F.grown v).get? n = if n = (F.nodes.insert ⟨v, none, []⟩).1 then some ⟨v, none, []⟩ else F.get? n :=
  hF.sound.get?_insert _ n

/-- A new node has no links, and its name had none before. -/
theorem parentOf_grown (hF : F.WellFormed) (v : α) : (F.grown v).parentOf = F.parentOf := by
  funext n
  have hold : F.get? (F.nodes.insert ⟨v, none, []⟩).1 = none := hF.sound.get?_insert_new _
  show ((F.grown v).get? n).bind Node.parent = (F.get? n).bind Node.parent
  rw [get?_grown hF]
  by_cases hn : n = (F.nodes.insert ⟨v, none, []⟩).1
  · rw [if_pos hn, hn, hold]
    rfl
  · rw [if_neg hn]

theorem childrenOf_grown (hF : F.WellFormed) (v : α) : (F.grown v).childrenOf = F.childrenOf := by
  funext n
  have hold : F.get? (F.nodes.insert ⟨v, none, []⟩).1 = none := hF.sound.get?_insert_new _
  show (((F.grown v).get? n).map Node.children).getD [] = ((F.get? n).map Node.children).getD []
  rw [get?_grown hF]
  by_cases hn : n = (F.nodes.insert ⟨v, none, []⟩).1
  · rw [if_pos hn, hn, hold]
    rfl
  · rw [if_neg hn]

theorem contains_grown (hF : F.WellFormed) (v : α) {n : NodeId} (hn : F.contains n = true) :
    (F.grown v).contains n = true := by
  obtain ⟨node, hnode⟩ := contains_iff.1 hn
  rw [contains_iff]
  have hget := get?_grown hF v n
  split at hget
  · exact ⟨_, hget⟩
  · exact ⟨node, hget.trans hnode⟩

theorem parentOf_revalued (f : NodeId → α → α) (F : Forest α) : (F.revalued f).parentOf = F.parentOf := by
  funext n
  show ((F.revalued f).get? n).bind Node.parent = (F.get? n).bind Node.parent
  rw [revalued, get?_rewire]
  cases F.get? n <;> rfl

theorem childrenOf_revalued (f : NodeId → α → α) (F : Forest α) : (F.revalued f).childrenOf = F.childrenOf := by
  funext n
  show (((F.revalued f).get? n).map Node.children).getD [] = ((F.get? n).map Node.children).getD []
  rw [revalued, get?_rewire]
  cases F.get? n <;> rfl

/-- **Every effect keeps a forest well-formed.** -/
theorem Effect.wellFormed {k : Nat} (h : Effect F k G) (hF : F.WellFormed) : G.WellFormed := by
  cases h with
  | still => exact hF
  | grown v => exact hF.of_links (hF.sound.insert _) (parentOf_grown hF v) (childrenOf_grown hF v)
  | revalued f => exact hF.of_links (hF.sound.mapNamed _) (parentOf_revalued f F) (childrenOf_revalued f F)
  | @moved p c i hp hc hup hi =>
    -- cutting adds no ancestors, so the new parent is not below `c` after it either
    refine ((hF.cut c).graft ?_ ?_ ?_ ?_ ?_).bumped
    · rwa [contains_cut]
    · rwa [contains_cut]
    · rw [parentOf_cut, if_pos rfl]
    · exact fun hcut => hup (ancestor_of_ancestor_cut hcut)
    · rwa [childrenOf_cut]
  | taken c => exact (hF.cut c).bumped
  | emptied l => exact hF.cutAll l
  | dropped hn hroot => exact (hF.prune hn hroot).bumped
  | @discarded n hn =>
    refine ((hF.cut n).bumped.prune ?_ ?_).bumped
    · rwa [contains_bumped, contains_cut]
    · rw [parentOf_bumped, parentOf_cut, if_pos rfl]

/-- The generation moves by the number of structural writes. -/
theorem Effect.generation_eq {k : Nat} (h : Effect F k G) : G.generation = F.generation + UInt64.ofNat k := by
  cases h with
  | still | grown | revalued => exact (UInt64.add_zero _).symm
  | moved | taken | dropped => rfl
  | emptied l => exact generation_cutAll l F
  | discarded => exact UInt64.add_assoc ..

/-- **Without a structural write the links stay**, and no node is lost. -/
theorem Effect.links_eq (h : Effect F 0 G) (hF : F.WellFormed) :
    G.parentOf = F.parentOf ∧ G.childrenOf = F.childrenOf ∧ ∀ n, F.contains n = true → G.contains n = true := by
  generalize hk : 0 = k at h
  -- only the effects without a write are left, and cutting all of no children
  cases h with
  | still => exact ⟨rfl, rfl, fun _ hn => hn⟩
  | grown v => exact ⟨parentOf_grown hF v, childrenOf_grown hF v, fun _ hn => contains_grown hF v hn⟩
  | revalued f =>
    refine ⟨parentOf_revalued f F, childrenOf_revalued f F, ?_⟩
    intro n hn
    rwa [Forest.revalued, contains_rewire]
  | emptied l =>
    obtain rfl := List.length_eq_zero_iff.1 hk.symm
    exact ⟨rfl, rfl, fun _ hn => hn⟩
  | moved | taken | dropped | discarded => omega

/-! ## Runs -/

theorem WellFormed.empty : (empty : Forest α).WellFormed where
  sound := .empty
  mem_childrenOf_iff p c := by simp [childrenOf, parentOf, get?, Forest.empty]
  nodup_childrenOf p := by simp [childrenOf, get?, Forest.empty]
  wellFounded := ⟨fun n => .intro n fun p hlink => by simp [Link, parentOf, get?, Forest.empty] at hlink⟩

/-- One call keeps a forest well-formed. -/
theorem WellFormed.after (hF : F.WellFormed) (call : Call α) : (F.after call).WellFormed :=
  (hF.effect_after call).wellFormed hF

/-- A sequence of calls keeps a forest well-formed. -/
theorem WellFormed.afterAll (hF : F.WellFormed) (calls : List (Call α)) : (F.afterAll calls).WellFormed := by
  induction calls generalizing F with
  | nil => exact hF
  | cons call calls ih => exact ih (hF.after call)

/-- The generation after a call. -/
theorem WellFormed.generation_after (hF : F.WellFormed) (call : Call α) :
    (F.after call).generation = F.generation + UInt64.ofNat (call.bumps F) :=
  (hF.effect_after call).generation_eq

/-- A call that changes a link or gives up a node counts a structural write. -/
theorem WellFormed.bumps_pos (hF : F.WellFormed) {call : Call α} {n : NodeId}
    (h : (F.after call).parentOf n ≠ F.parentOf n ∨ (F.after call).childrenOf n ≠ F.childrenOf n
      ∨ F.contains n = true ∧ (F.after call).contains n = false) : 0 < call.bumps F := by
  apply Nat.pos_of_ne_zero
  intro hzero
  obtain ⟨hparent, hchildren, hlive⟩ := (hzero ▸ hF.effect_after call).links_eq hF
  rcases h with h | h | ⟨hn, hgone⟩
  · exact h (congrFun hparent n)
  · exact h (congrFun hchildren n)
  · rw [hlive n hn] at hgone
    exact absurd hgone (by simp)

theorem Reachable.wellFormed (h : F.Reachable) : F.WellFormed := by
  obtain ⟨calls, rfl⟩ := h
  exact WellFormed.empty.afterAll calls

theorem Reachable.after (h : F.Reachable) (call : Call α) : (F.after call).Reachable := by
  obtain ⟨calls, rfl⟩ := h
  exact ⟨calls ++ [call], by rw [Forest.afterAll, List.foldl_append]; rfl⟩

/-- **The links after any sequence of calls.** Every link leads to a node that is there, a node lists exactly the
    nodes that have it as their parent, each of them once, and climbing from a node ends at one without a parent:
    no node is its own proper ancestor. -/
theorem links_after_calls (calls : List (Call α)) :
    let F := (empty : Forest α).afterAll calls
    (∀ n node, F.get? n = some node →
      (∀ p, node.parent = some p → F.contains p = true) ∧ ∀ c ∈ node.children, F.contains c = true) ∧
    (∀ p c above below, F.get? p = some above → F.get? c = some below →
      (c ∈ above.children ↔ below.parent = some p)) ∧
    (∀ n node, F.get? n = some node → node.children.Nodup) ∧
    (∀ n, F.contains n = true → ∃ l, F.Climb n l ∧ ∀ x ∈ l, F.contains x = true) ∧
    ∀ n, ¬ Relation.TransGen F.Link n n := by
  intro F
  have hF : F.WellFormed := WellFormed.empty.afterAll calls
  refine ⟨?_, ?_, ?_, ?_, hF.acyclic⟩
  · intro n node hn
    constructor
    · intro p hp
      exact hF.contains_parent ((parentOf_of_get? hn).trans hp)
    · intro c hc
      rw [← childrenOf_of_get? hn] at hc
      exact hF.contains_child hc
  · intro p c above below hp hc
    have hiff := hF.mem_childrenOf_iff p c
    rwa [childrenOf_of_get? hp, parentOf_of_get? hc] at hiff
  · intro n node hn
    have hnodup := hF.nodup_childrenOf n
    rwa [childrenOf_of_get? hn] at hnodup
  · intro n hn
    have hclimb := hF.climb_chain hn
    exact ⟨F.chain n, hclimb, fun x hx => hF.contains_ancestor (hclimb.mem_iff.1 hx) hn⟩

end Grove.Forest
