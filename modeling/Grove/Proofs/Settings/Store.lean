import Grove.Settings.Store
import Mathlib.Data.List.Basic

/-!
# `Proofs.Settings.Store` — what putting settings comes to

To put one setting is to go down the way to its place and to change what stands there on the way back, so there is one
lemma for each kind of step (`put_key_eq_some_iff`, `put_position_eq_some_iff`). Only positions can be in the way. One
that every list grows up to can be reached whatever was put before (`exists_put`); any other can be reached only where
something was put before (`put_nothing_isSome`).

What each setting preserves, all of them preserve one after the other (`putAll_invariant`). So a setting of the section
is there in the end only if it was put (`mem_of_setting?`), and it is there whenever it was put if the others leave the
section alone (`setting?_eq_some_iff`). In neither does the order matter.
-/

namespace Grove

/-! ## Places -/

namespace Place

/-- Every list can grow up to the position, however short it is. -/
def Step.isReachable (limit : Nat) : Step → Bool
  | key _ => true
  | position p => decide (0 ≤ p ∧ p < limit)

/-- The place can be reached by itself. -/
def isReachable (limit : Nat) (p : Place) : Bool :=
  p.path.all (Step.isReachable limit)

/-- Nothing is lost in cutting a text. -/
theorem cut_append (text : List Char) : (cut text).1 ++ (cut text).2.flatten = text := by
  induction text with
  | nil => rfl
  | cons c rest ih =>
    unfold cut
    dsimp only
    split
    · rw [List.nil_append, List.flatten_cons, List.cons_append, ih]
    · rw [List.cons_append, ih]

theorem key?_eq_some {text : List Char} {name : String} (h : key? text = some name) : text = name.toList := by
  unfold key? at h
  split at h
  · cases h
  · rw [← Option.some.inj h, String.toList_ofList]

theorem step?_eq_key {piece : List Char} {name : String} (h : step? piece = some (.key name)) :
    piece = '.' :: name.toList := by
  unfold step? at h
  split at h
  · next rest =>
    obtain ⟨key, hkey, heq⟩ := Option.map_eq_some_iff.1 h
    cases heq
    rw [key?_eq_some hkey]
  · split at h
    · obtain ⟨_, -, heq⟩ := Option.map_eq_some_iff.1 h
      cases heq
    · cases h
  · cases h

theorem ofText?_eq_some {text : String} {p : Place} (h : ofText? text = some p) :
    (cut text.toList).1 = p.top.toList ∧ (cut text.toList).2.mapM step? = some p.steps := by
  unfold ofText? at h
  dsimp only at h
  obtain ⟨top, htop, h⟩ := Option.bind_eq_some_iff.1 h
  obtain ⟨steps, hsteps, h⟩ := Option.bind_eq_some_iff.1 h
  cases h
  exact ⟨key?_eq_some htop, hsteps⟩

/-- A text begins with the first key of its place. -/
theorem top_prefix (text : String) : (ofText text).top.toList <+: text.toList := by
  unfold ofText
  cases h : ofText? text with
  | none => exact List.prefix_rfl
  | some p =>
    refine ⟨(cut text.toList).2.flatten, ?_⟩
    rw [Option.getD_some, ← (ofText?_eq_some h).1, cut_append]

theorem eq_of_mapM_step? {pieces : List (List Char)} {name : String} (h : pieces.mapM step? = some [.key name]) :
    pieces = ['.' :: name.toList] := by
  cases pieces with
  | nil =>
    rw [List.mapM_nil] at h
    cases h
  | cons piece rest =>
    rw [List.mapM_cons] at h
    obtain ⟨step, hstep, h⟩ := Option.bind_eq_some_iff.1 h
    obtain ⟨steps, hsteps, h⟩ := Option.bind_eq_some_iff.1 h
    cases h
    rw [step?_eq_key hstep]
    cases rest with
    | nil => rfl
    | cons piece rest =>
      rw [List.mapM_cons] at hsteps
      obtain ⟨_, -, hsteps⟩ := Option.bind_eq_some_iff.1 hsteps
      obtain ⟨_, -, hsteps⟩ := Option.bind_eq_some_iff.1 hsteps
      cases hsteps

/-- Two keys in a row are written in one way only. -/
theorem eq_of_ofText {text top name : String} (h : ofText text = ⟨top, [.key name]⟩) : text = top ++ "." ++ name := by
  unfold ofText at h
  cases hread : ofText? text with
  | none =>
    rw [hread] at h
    cases h
  | some p =>
    rw [hread, Option.getD_some] at h
    subst h
    obtain ⟨htop, hsteps⟩ := ofText?_eq_some hread
    have hcut := cut_append text.toList
    rw [htop, eq_of_mapM_step? hsteps, List.flatten_singleton] at hcut
    rw [← String.toList_inj, ← hcut, String.toList_append, String.toList_append, List.append_assoc]
    rfl

end Place

namespace Store

variable {limit : Nat} {value name : String} {steps : List Place.Step} {s s' : Store}

/-! ## One setting -/

theorem entry_setEntry_self (s inner : Store) (name : String) : (s.setEntry name inner).entry name = inner :=
  if_pos rfl

theorem entry_setEntry_of_ne (s inner : Store) {name key : String} (h : key ≠ name) :
    (s.setEntry name inner).entry key = s.entry key :=
  if_neg h

theorem put_key_eq_some_iff :
    s.put limit value (.key name :: steps) = some s' ↔
      ∃ inner, (s.entry name).put limit value steps = some inner ∧ s.setEntry name inner = s' := by
  rw [put, Option.map_eq_some_iff]

theorem put_position_eq_some_iff {p : Int} :
    s.put limit value (.position p :: steps) = some s' ↔
      ∃ i, index? limit s.elements.length p = some i ∧
        ∃ inner, (s.elements.getD i nothing).put limit value steps = some inner ∧ s.setElement i inner = s' := by
  rw [put, Option.bind_eq_some_iff]
  simp only [Option.map_eq_some_iff]

/-- A position from zero on counts from the beginning, and one below zero from the end. -/
theorem index?_eq_some_iff {length i : Nat} {p : Int} :
    index? limit length p = some i ↔ (0 ≤ p ∧ p = i ∨ p < 0 ∧ length + p = i) ∧ i < limit := by
  unfold index?
  dsimp only
  rw [Option.ite_none_right_eq_some, Option.some.injEq]
  split <;> omega

theorem index?_of_reachable {p : Int} (h : 0 ≤ p ∧ p < limit) (length : Nat) :
    index? limit length p = some p.toNat :=
  index?_eq_some_iff.2 (by omega)

theorem index?_zero {p : Int} (h : ¬ (0 ≤ p ∧ p < limit)) : index? limit 0 p = none := by
  rw [Option.eq_none_iff_forall_ne_some]
  intro i hi
  have := index?_eq_some_iff.1 hi
  omega

/-- A place that is within reach by itself can be reached whatever was put before. -/
theorem exists_put (value : String) (h : steps.all (Place.Step.isReachable limit) = true) (s : Store) :
    ∃ s', s.put limit value steps = some s' := by
  induction steps generalizing s with
  | nil => exact ⟨_, rfl⟩
  | cons step rest ih =>
    rw [List.all_cons, Bool.and_eq_true] at h
    cases step with
    | key name =>
      obtain ⟨inner, hinner⟩ := ih h.2 (s.entry name)
      exact ⟨_, put_key_eq_some_iff.2 ⟨inner, hinner, rfl⟩⟩
    | position p =>
      obtain ⟨inner, hinner⟩ := ih h.2 (s.elements.getD p.toNat nothing)
      have hindex := index?_of_reachable (of_decide_eq_true h.1) s.elements.length
      exact ⟨_, put_position_eq_some_iff.2 ⟨_, hindex, inner, hinner, rfl⟩⟩

/-- Where nothing was put before, no other place can be reached. -/
theorem put_nothing_isSome (limit : Nat) (value : String) (steps : List Place.Step) :
    (nothing.put limit value steps).isSome = steps.all (Place.Step.isReachable limit) := by
  induction steps with
  | nil => rfl
  | cons step rest ih =>
    rw [List.all_cons]
    cases step with
    | key name =>
      rw [put, Option.isSome_map]
      exact ih.trans (Bool.true_and _).symm
    | position p =>
      by_cases hp : 0 ≤ p ∧ p < limit
      · rw [put, index?_of_reachable hp, Option.bind_some, Option.isSome_map, Place.Step.isReachable, decide_eq_true hp,
          Bool.true_and]
        exact ih
      · rw [put, show nothing.elements.length = 0 from rfl, index?_zero hp, Place.Step.isReachable, decide_eq_false hp]
        rfl

/-- What stands under another key of the outermost table stays there. -/
theorem entry_put_of_ne {top key : String} (h : s.put limit value (.key top :: steps) = some s') (hne : key ≠ top) :
    s'.entry key = s.entry key := by
  obtain ⟨inner, -, rfl⟩ := put_key_eq_some_iff.1 h
  exact entry_setEntry_of_ne s inner hne

/-! ### Settings of the section -/

theorem setting?_put_self (h : s.put limit value [.key "render", .key name] = some s') :
    s'.setting? name = some value := by
  obtain ⟨_, hinner, rfl⟩ := put_key_eq_some_iff.1 h
  obtain ⟨_, hvalue, rfl⟩ := put_key_eq_some_iff.1 hinner
  cases hvalue
  rw [setting?, entry_setEntry_self, entry_setEntry_self]
  rfl

theorem setting?_put_of_ne {key : String} (h : s.put limit value [.key "render", .key key] = some s')
    (hne : name ≠ key) : s'.setting? name = s.setting? name := by
  obtain ⟨_, hinner, rfl⟩ := put_key_eq_some_iff.1 h
  obtain ⟨_, -, rfl⟩ := put_key_eq_some_iff.1 hinner
  rw [setting?, entry_setEntry_self, entry_setEntry_of_ne _ _ hne, setting?]

theorem setting?_put_of_top {top : String} (h : s.put limit value (.key top :: steps) = some s')
    (htop : "render" ≠ top) : s'.setting? name = s.setting? name := by
  rw [setting?, entry_put_of_ne h htop, setting?]

/-- Where a way goes on there is no text. -/
theorem text?_put_cons {step : Place.Step} (h : s.put limit value (step :: steps) = some s') : s'.text? = none := by
  cases step with
  | key name =>
    obtain ⟨_, -, rfl⟩ := put_key_eq_some_iff.1 h
    rfl
  | position p =>
    obtain ⟨_, -, _, -, rfl⟩ := put_position_eq_some_iff.1 h
    rfl

/-- A setting that is there was put just now or was there before. -/
theorem setting?_put {top v : String} (h : s.put limit value (.key top :: steps) = some s')
    (hv : s'.setting? name = some v) :
    (top = "render" ∧ steps = [.key name] ∧ value = v) ∨ s.setting? name = some v := by
  by_cases htop : "render" = top
  case neg => exact .inr (setting?_put_of_top h htop ▸ hv)
  subst htop
  obtain ⟨inner, hinner, rfl⟩ := put_key_eq_some_iff.1 h
  rw [setting?, entry_setEntry_self] at hv
  -- of what can now stand in place of the section, only a table has settings
  cases steps with
  | nil =>
    cases hinner
    cases hv
  | cons step rest =>
    cases step with
    | position p =>
      obtain ⟨_, -, _, -, rfl⟩ := put_position_eq_some_iff.1 hinner
      cases hv
    | key key =>
      obtain ⟨leaf, hleaf, rfl⟩ := put_key_eq_some_iff.1 hinner
      by_cases hkey : name = key
      case neg => exact .inr (by rwa [entry_setEntry_of_ne _ _ hkey] at hv)
      subst hkey
      rw [entry_setEntry_self] at hv
      cases rest with
      | nil =>
        cases hleaf
        exact .inl ⟨rfl, rfl, Option.some.inj hv⟩
      | cons step rest => cases (text?_put_cons hleaf).symm.trans hv

/-! ## One after the other -/

section Runs

variable {l : List (String × String)}

/-- Of settings with different places, those before one are for other places. -/
theorem fst_ne_of_nodup {done rest : List (String × String)} {x y : String × String}
    (h : ((done ++ x :: rest).map Prod.fst).Nodup) (hy : y ∈ done) : y.1 ≠ x.1 := by
  rw [List.map_append, List.nodup_append] at h
  exact h.2.2 _ (List.mem_map_of_mem hy) _ (List.mem_map_of_mem List.mem_cons_self)

/-- What holds before and is preserved by each setting holds in the end. It may speak of the settings done so far. -/
theorem putAll_invariant {P : List (String × String) → Store → Prop} (hstart : P [] s)
    (hstep : ∀ done x rest mid next, l = done ++ x :: rest → P done mid →
      mid.put limit x.2 (Place.ofText x.1).path = some next → P (done ++ [x]) next)
    (h : s.putAll limit l = .ok s') : P l s' := by
  have hrun : ∀ rest done mid, l = done ++ rest → P done mid → mid.putAll limit rest = .ok s' → P l s' := by
    intro rest
    induction rest with
    | nil =>
      intro done mid hl hP hput
      cases hput
      rwa [hl, List.append_nil]
    | cons x rest ih =>
      intro done mid hl hP hput
      rw [putAll] at hput
      cases hx : mid.put limit x.2 (Place.ofText x.1).path with
      | none =>
        rw [hx] at hput
        cases hput
      | some next =>
        rw [hx] at hput
        exact ih (done ++ [x]) next (by rw [hl, List.append_assoc, List.singleton_append])
          (hstep done x rest mid next hl hP hx) hput
  exact hrun l [] s rfl hstart h

/-- The first setting that cannot be put is the one with which it ends. -/
theorem putAll_eq_error_iff {place : String} :
    s.putAll limit l = .error place ↔
      ∃ before value after mid, l = before ++ (place, value) :: after ∧ s.putAll limit before = .ok mid ∧
        mid.put limit value (Place.ofText place).path = none := by
  induction l generalizing s with
  | nil =>
    constructor
    · intro h
      cases h
    · rintro ⟨before, _, _, _, hl, -⟩
      cases before <;> cases hl
  | cons x rest ih =>
    obtain ⟨place', value'⟩ := x
    rw [putAll]
    cases hx : s.put limit value' (Place.ofText place').path with
    | none =>
      dsimp only
      constructor
      · rintro ⟨⟩
        exact ⟨[], value', rest, s, rfl, rfl, hx⟩
      · rintro ⟨before, value, after, mid, hl, hbefore, -⟩
        cases before with
        | nil =>
          cases hl
          rfl
        | cons y before =>
          cases hl
          rw [putAll, hx] at hbefore
          cases hbefore
    | some next =>
      dsimp only
      rw [ih]
      constructor
      · rintro ⟨before, value, after, mid, rfl, hbefore, hput⟩
        exact ⟨(place', value') :: before, value, after, mid, rfl, by rwa [putAll, hx], hput⟩
      · rintro ⟨before, value, after, mid, hl, hbefore, hput⟩
        cases before with
        | nil =>
          cases hl
          cases hbefore
          cases hx.symm.trans hput
        | cons y before =>
          cases hl
          rw [putAll, hx] at hbefore
          exact ⟨before, value, after, mid, rfl, hbefore, hput⟩

/-- Settings that are all within reach by themselves can be put in any order. -/
theorem exists_putAll (h : ∀ x ∈ l, (Place.ofText x.1).isReachable limit = true) (s : Store) :
    ∃ s', s.putAll limit l = .ok s' := by
  cases hput : s.putAll limit l with
  | ok s' => exact ⟨s', rfl⟩
  | error place =>
    obtain ⟨before, value, after, mid, hl, -, hnone⟩ := putAll_eq_error_iff.1 hput
    obtain ⟨next, hnext⟩ := exists_put value (h (place, value) (by simp [hl])) mid
    cases hnone.symm.trans hnext

/-- A setting that is not within reach by itself cannot be put if no other goes into the same table or list. -/
theorem putAll_of_unreachable {place value : String} (hnodup : (l.map Prod.fst).Nodup) (hmem : (place, value) ∈ l)
    (hfar : (Place.ofText place).isReachable limit = false)
    (halone : ∀ x ∈ l, x.1 ≠ place → (Place.ofText x.1).top ≠ (Place.ofText place).top) :
    ∃ place', empty.putAll limit l = .error place' := by
  obtain ⟨before, after, rfl⟩ := List.append_of_mem hmem
  cases hbefore : empty.putAll limit before with
  | error place' =>
    obtain ⟨before', value', after', mid, rfl, hput, hnone⟩ := putAll_eq_error_iff.1 hbefore
    refine ⟨place', putAll_eq_error_iff.2 ⟨before', value', after' ++ (place, value) :: after, mid, ?_, hput, hnone⟩⟩
    simp
  | ok mid =>
    -- nothing stands under its first key by then
    have hnothing : mid.entry (Place.ofText place).top = nothing := by
      refine putAll_invariant (P := fun _ s => s.entry (Place.ofText place).top = nothing) rfl ?_ hbefore
      intro done x rest s next hl hs hput
      have hx : x ∈ before := by simp [hl]
      rwa [entry_put_of_ne hput (halone x (List.mem_append_left _ hx) (fst_ne_of_nodup hnodup hx)).symm]
    refine ⟨place, putAll_eq_error_iff.2 ⟨before, value, after, mid, rfl, hbefore, ?_⟩⟩
    have hfalse : (nothing.put limit value (Place.ofText place).steps).isSome = false :=
      (put_nothing_isSome ..).trans hfar
    rw [Place.path, put, hnothing, Option.isNone_iff_eq_none.1 (Option.isSome_eq_false_iff.1 hfalse)]
    rfl

/-- Else it depends on the order: the position from the end is there as soon as the list has an element. -/
example :
    (empty.putAll 2 [("x[0]", "a"), ("x[-1]", "b")]).isOk = true ∧
      (empty.putAll 2 [("x[-1]", "b"), ("x[0]", "a")]).isOk = false := by
  decide

/-! ### Settings of the section -/

variable {place : String} (hplace : Place.ofText place = ⟨"render", [.key name]⟩)
include hplace

theorem place_eq_iff {text : String} : text = place ↔ Place.ofText text = ⟨"render", [.key name]⟩ := by
  constructor
  · rintro rfl
    exact hplace
  · intro h
    rw [Place.eq_of_ofText h, Place.eq_of_ofText hplace]

/-- A setting that is there in the end was put. -/
theorem mem_of_setting? (h : empty.putAll limit l = .ok s) {v : String} (hv : s.setting? name = some v) :
    (place, v) ∈ l := by
  revert v
  refine putAll_invariant (P := fun done s => ∀ {v : String}, s.setting? name = some v → (place, v) ∈ done) ?_ ?_ h
  · intro v hv
    cases hv
  intro done x rest mid next _ hmid hput v hv
  rw [List.mem_append, List.mem_singleton]
  obtain ⟨htop, hsteps, rfl⟩ | hbefore := setting?_put hput hv
  · have hx : Place.ofText x.1 = ⟨"render", [.key name]⟩ := by
      rw [← htop, ← hsteps]
    exact .inr (Prod.ext ((place_eq_iff hplace).2 hx).symm rfl)
  · exact .inl (hmid hbefore)

/-- If the section is spoken of only to give settings, a setting is there in the end exactly if it was put. -/
theorem setting?_eq_some_iff (hnodup : (l.map Prod.fst).Nodup)
    (honly : ∀ x ∈ l, (Place.ofText x.1).top = "render" → ∃ key, (Place.ofText x.1).steps = [.key key])
    (h : empty.putAll limit l = .ok s) (v : String) : s.setting? name = some v ↔ (place, v) ∈ l := by
  refine ⟨mem_of_setting? hplace h, ?_⟩
  revert v
  refine putAll_invariant (P := fun done s => ∀ v, (place, v) ∈ done → s.setting? name = some v) nofun ?_ h
  intro done x rest mid next hl hmid hput v hv
  have hx : x ∈ l := by simp [hl]
  rw [List.mem_append, List.mem_singleton] at hv
  obtain hv | rfl := hv
  case inr =>
    rw [hplace] at hput
    exact setting?_put_self hput
  -- another setting was put since, which leaves this one as it was
  have hne : x.1 ≠ place := (fst_ne_of_nodup (hl ▸ hnodup) hv).symm
  rw [← hmid v hv]
  by_cases htop : "render" = (Place.ofText x.1).top
  case neg => exact setting?_put_of_top hput htop
  obtain ⟨key, hkey⟩ := honly x hx htop.symm
  rw [Place.path, ← htop, hkey] at hput
  refine setting?_put_of_ne hput ?_
  rintro rfl
  refine hne ((place_eq_iff hplace).2 ?_)
  rw [htop, ← hkey]

end Runs

end Store

end Grove
