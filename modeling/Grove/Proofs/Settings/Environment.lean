import Grove.Proofs.Settings.Store
import Grove.Settings.Environment
import Mathlib.Tactic.Push

/-!
# `Proofs.Settings.Environment` — what the environment gives

The variables give each place once (`nodup_assignments`), and the host puts these settings where they belong in an order
of its own. Whether all of them find a place can depend on that order (`Host.SettingsFit`). It does not if each place is
within reach by itself, and neither if one is not and nothing else goes into the same table or list.

The settings of the section do not depend on the order, so that what the environment comes to can be said by relations
that do not mention it: it is a layer (`EnvironmentLayer`) or at fault (`EnvironmentFault`). For a setting that only
one variable gives it makes no difference which of them counts (`IsClear.mem_assignments_iff`).
-/

namespace Grove

/-! ## Variables -/

/-- Some variable gives this value to the setting at this place. -/
def Gives (environment : List (String × String)) (place value : String) : Prop :=
  ∃ name, (name, value) ∈ environment ∧ settingOfName? name = some place

/-- The places of the settings that mean something. -/
def settingPlaces : List String :=
  ["render.style", "render.indent", "render.prefix"]

/-- The environments that speak of the section only to give its settings, each of them once at most. -/
structure IsClear (environment : List (String × String)) : Prop where
  known : ∀ v ∈ environment, ∀ place ∈ settingOfName? v.1, "render".toList <+: place.toList → place ∈ settingPlaces
  once : ∀ place ∈ settingPlaces, (environment.filter fun v => settingOfName? v.1 = some place).length ≤ 1

/-- Every variable that gives a setting gives it at a place within reach by itself. -/
def IsInReach (limit : Nat) (environment : List (String × String)) : Prop :=
  ∀ v ∈ environment, ∀ place ∈ settingOfName? v.1, (Place.ofText place).isReachable limit = true

instance (limit : Nat) (environment : List (String × String)) : Decidable (IsInReach limit environment) :=
  inferInstanceAs (Decidable (∀ v ∈ environment, ∀ place ∈ settingOfName? v.1,
    (Place.ofText place).isReachable limit = true))

/-- Some variable gives a setting at a place that is not within reach by itself, and no variable gives another setting
    in the same table or list. -/
def IsStranded (limit : Nat) (environment : List (String × String)) : Prop :=
  ∃ v ∈ environment, ∃ place ∈ settingOfName? v.1, (Place.ofText place).isReachable limit = false ∧
    ∀ w ∈ environment, ∀ other ∈ settingOfName? w.1, other ≠ place →
      (Place.ofText other).top ≠ (Place.ofText place).top

/-- Every setting of the environment finds its place, in the order in which the host puts them. -/
def Host.SettingsFit (host : Host) : Prop :=
  ∃ store, host.store = .ok store

section Variables

variable {environment : List (String × String)} {place value : String}

/-- A variable adds its setting to those of the later ones, unless it gives none or its place is given later. -/
theorem assignments_cons (v : String × String) (rest : List (String × String)) :
    (assignments (v :: rest) = assignments rest ∧
      ∀ place, settingOfName? v.1 = some place → ∃ w, (place, w) ∈ assignments rest) ∨
    ∃ place, settingOfName? v.1 = some place ∧ place ∉ (assignments rest).map Prod.fst ∧
      assignments (v :: rest) = (place, v.2) :: assignments rest := by
  obtain ⟨name, value⟩ := v
  rw [assignments]
  cases settingOfName? name with
  | none => exact .inl ⟨rfl, nofun⟩
  | some place =>
    by_cases hlater : (assignments rest).any (·.1 = place) = true
    · refine .inl ⟨if_pos hlater, ?_⟩
      rintro _ ⟨⟩
      obtain ⟨⟨_, w⟩, hw, hfst⟩ := List.any_eq_true.1 hlater
      obtain rfl := of_decide_eq_true hfst
      exact ⟨w, hw⟩
    · refine .inr ⟨place, rfl, fun hmem => hlater ?_, if_neg hlater⟩
      obtain ⟨x, hx, hfst⟩ := List.mem_map.1 hmem
      exact List.any_eq_true.2 ⟨x, hx, decide_eq_true hfst⟩

theorem gives_of_mem_assignments (h : (place, value) ∈ assignments environment) : Gives environment place value := by
  induction environment with
  | nil => cases h
  | cons v rest ih =>
    have hrest (h : (place, value) ∈ assignments rest) : Gives (v :: rest) place value := by
      obtain ⟨name, hmem, hname⟩ := ih h
      exact ⟨name, List.mem_cons_of_mem _ hmem, hname⟩
    obtain ⟨hsame, -⟩ | ⟨place', hname, -, hcons⟩ := assignments_cons v rest
    · exact hrest (hsame ▸ h)
    · rw [hcons, List.mem_cons] at h
      obtain h | h := h
      · cases h
        exact ⟨v.1, List.mem_cons_self, hname⟩
      · exact hrest h

theorem exists_mem_assignments (h : Gives environment place value) : ∃ w, (place, w) ∈ assignments environment := by
  induction environment with
  | nil =>
    obtain ⟨name, hmem, -⟩ := h
    cases hmem
  | cons v rest ih =>
    obtain ⟨name, hmem, hname⟩ := h
    have hlater : (∃ w, (place, w) ∈ assignments rest) ∨ v = (name, value) := by
      obtain rfl | hmem := List.mem_cons.1 hmem
      · exact .inr rfl
      · exact .inl (ih ⟨name, hmem, hname⟩)
    obtain ⟨hsame, hgiven⟩ | ⟨place', hplace', -, hcons⟩ := assignments_cons v rest
    · rw [hsame]
      obtain hw | rfl := hlater
      · exact hw
      · exact hgiven place hname
    · rw [hcons]
      obtain ⟨w, hw⟩ | rfl := hlater
      · exact ⟨w, List.mem_cons_of_mem _ hw⟩
      · obtain rfl := Option.some.inj (hname.symm.trans hplace')
        exact ⟨value, List.mem_cons_self⟩

variable (environment) in
/-- No place is given twice. -/
theorem nodup_assignments : ((assignments environment).map Prod.fst).Nodup := by
  induction environment with
  | nil => exact List.nodup_nil
  | cons v rest ih =>
    obtain ⟨hsame, -⟩ | ⟨place, -, hnew, hcons⟩ := assignments_cons v rest
    · rwa [hsame]
    · rw [hcons, List.map_cons]
      exact List.nodup_cons.2 ⟨hnew, ih⟩

/-- Two variables do not give the same of the settings. -/
theorem IsClear.gives_unique (h : IsClear environment) (hplace : place ∈ settingPlaces) {w : String}
    (hv : Gives environment place value) (hw : Gives environment place w) : value = w := by
  -- both values belong to variables in a list of one at most
  have hmem {v : String} (hgives : Gives environment place v) :
      ∃ name, (name, v) ∈ environment.filter fun v => settingOfName? v.1 = some place := by
    obtain ⟨name, hmem, hname⟩ := hgives
    exact ⟨name, List.mem_filter.2 ⟨hmem, decide_eq_true hname⟩⟩
  obtain ⟨n, hn⟩ := hmem hv
  obtain ⟨m, hm⟩ := hmem hw
  have hone := h.once place hplace
  match hlist : environment.filter fun v => settingOfName? v.1 = some place with
  | [] =>
    rw [hlist] at hn
    cases hn
  | [v] =>
    rw [hlist, List.mem_singleton] at hn hm
    exact (Prod.mk.inj (hn.trans hm.symm)).2
  | _ :: _ :: _ =>
    rw [hlist] at hone
    simp at hone

theorem ofText_style : Place.ofText "render.style" = ⟨"render", [.key "style"]⟩ := by
  decide

theorem ofText_indent : Place.ofText "render.indent" = ⟨"render", [.key "indent"]⟩ := by
  decide

theorem ofText_prefix : Place.ofText "render.prefix" = ⟨"render", [.key "prefix"]⟩ := by
  decide

/-- The way to one of the settings leads over keys only. -/
theorem exists_ofText_eq (h : place ∈ settingPlaces) : ∃ name, Place.ofText place = ⟨"render", [.key name]⟩ := by
  simp only [settingPlaces, List.mem_cons, List.not_mem_nil, or_false] at h
  obtain rfl | rfl | rfl := h
  · exact ⟨_, ofText_style⟩
  · exact ⟨_, ofText_indent⟩
  · exact ⟨_, ofText_prefix⟩

end Variables

/-! ## Settings of a host -/

section Hosts

variable {host : Host} {place value : String} {store : Store}

theorem mem_assignments_iff {x : String × String} : x ∈ host.assignments ↔ x ∈ assignments host.environment :=
  (host.order.perm _).mem_iff

variable (host) in
theorem nodup_host_assignments : (host.assignments.map Prod.fst).Nodup :=
  ((host.order.perm _).map Prod.fst).nodup_iff.2 (nodup_assignments host.environment)

theorem gives_of_mem (h : (place, value) ∈ host.assignments) : Gives host.environment place value :=
  gives_of_mem_assignments (mem_assignments_iff.1 h)

/-- The variable that gives a setting is the one that counts. -/
theorem IsClear.mem_assignments_iff (h : IsClear host.environment) (hplace : place ∈ settingPlaces) :
    (place, value) ∈ host.assignments ↔ Gives host.environment place value := by
  refine ⟨gives_of_mem, fun hgives => ?_⟩
  obtain ⟨w, hw⟩ := exists_mem_assignments hgives
  rw [h.gives_unique hplace hgives (gives_of_mem_assignments hw)]
  exact Grove.mem_assignments_iff.2 hw

/-- Settings that are within reach by themselves find their places in any order. -/
theorem settingsFit_of_inReach (h : IsInReach host.listLimit host.environment) : host.SettingsFit := by
  refine Store.exists_putAll ?_ _
  rintro ⟨place, value⟩ hx
  obtain ⟨name, hmem, hname⟩ := gives_of_mem hx
  exact h _ hmem place hname

/-- One that is not and that is left alone finds none in any order. -/
theorem not_settingsFit_of_stranded (h : IsStranded host.listLimit host.environment) : ¬ host.SettingsFit := by
  obtain ⟨⟨name, value⟩, hmem, place, hname, hfar, halone⟩ := h
  obtain ⟨w, hw⟩ := exists_mem_assignments ⟨name, hmem, hname⟩
  obtain ⟨place', herror⟩ :=
    Store.putAll_of_unreachable (nodup_host_assignments host) (mem_assignments_iff.2 hw) hfar fun x hx hne => by
      obtain ⟨other, hother, hgives⟩ := gives_of_mem hx
      exact halone _ hother x.1 hgives hne
  rintro ⟨store, hstore⟩
  cases hstore.symm.trans herror

/-- One of the settings that is there was given. -/
theorem gives_of_setting? {name : String} (hplace : Place.ofText place = ⟨"render", [.key name]⟩)
    (h : host.store = .ok store) (hvalue : store.setting? name = some value) : Gives host.environment place value :=
  gives_of_mem (Store.mem_of_setting? hplace h hvalue)

/-- In a clear environment the settings that are there are those that are given. -/
theorem IsClear.setting?_eq_some_iff (hclear : IsClear host.environment) (hmem : place ∈ settingPlaces) {name : String}
    (hplace : Place.ofText place = ⟨"render", [.key name]⟩) (h : host.store = .ok store) :
    store.setting? name = some value ↔ Gives host.environment place value := by
  rw [Store.setting?_eq_some_iff hplace (nodup_host_assignments host) ?_ h, hclear.mem_assignments_iff hmem]
  intro x hx htop
  obtain ⟨name, hvariable, hname⟩ := gives_of_mem hx
  have hprefix : "render".toList <+: x.1.toList := htop ▸ Place.top_prefix x.1
  obtain ⟨key, hkey⟩ := exists_ofText_eq (hclear.known _ hvariable x.1 hname hprefix)
  exact ⟨key, by rw [hkey]⟩

/-- So is what is made of them. -/
theorem IsClear.bind_setting?_eq_some_iff (hclear : IsClear host.environment) (hmem : place ∈ settingPlaces)
    {name : String} (hplace : Place.ofText place = ⟨"render", [.key name]⟩) (h : host.store = .ok store) {β : Type}
    {f : String → Option β} {b : β} :
    (store.setting? name).bind f = some b ↔ ∃ value, Gives host.environment place value ∧ f value = some b := by
  rw [Option.bind_eq_some_iff]
  simp only [hclear.setting?_eq_some_iff hmem hplace h]

end Hosts

/-! ## Styles -/

namespace RenderStyle

theorem ofName?_eq_some_iff {text : String} {style : RenderStyle} :
    ofName? text = some style ↔ text = style.name := by
  constructor
  · intro h
    unfold ofName? at h
    split at h <;> cases h <;> rfl
  · rintro rfl
    cases style <;> rfl

/-- The text is the name of the style if the case of ASCII letters does not count. -/
def NamedBy (style : RenderStyle) (text : String) : Prop :=
  text.toList.map Char.toLower = style.name.toList

theorem ofNameAnyCase?_eq_some_iff {text : String} {style : RenderStyle} :
    ofNameAnyCase? text = some style ↔ style.NamedBy text := by
  unfold ofNameAnyCase? NamedBy
  rw [ofName?_eq_some_iff, ← String.toList_inj, String.toList_ofList]

end RenderStyle

/-! ## Layers -/

/-- What the environment gives if nothing is wrong with it. -/
structure EnvironmentLayer (environment : List (String × String)) (overlay : Overlay) : Prop where
  named : ∀ value, Gives environment "render.style" value → ∃ style : RenderStyle, style.NamedBy value
  style : ∀ style, overlay.style = some style ↔
    ∃ value, Gives environment "render.style" value ∧ style.NamedBy value
  indent : ∀ n, overlay.indent = some n ↔
    ∃ value, Gives environment "render.indent" value ∧ indentOfText? value = some n
  lead : ∀ value, overlay.lead = some value ↔ Gives environment "render.prefix" value

/-- What is wrong with the environment: the first setting that finds no place after those before it, or else a style
    without a name. -/
inductive EnvironmentFault (host : Host) : Problem → Prop
  | outOfReach {before after : List (String × String)} {place value : String} {store : Store}
      (hassignments : host.assignments = before ++ (place, value) :: after)
      (hbefore : Store.empty.putAll host.listLimit before = .ok store)
      (hfar : store.put host.listLimit value (Place.ofText place).path = none) :
      EnvironmentFault host (.breach (.outOfReach place))
  | unknownStyle {value : String} (hfit : host.SettingsFit) (hgives : Gives host.environment "render.style" value)
      (hnamed : ∀ style : RenderStyle, ¬ style.NamedBy value) :
      EnvironmentFault host (.settings (.unknownStyle value))

section Environment

variable {host : Host} {store : Store}

/-- The overlay in a store, where a style without a name counts as not given. -/
def storedOverlay (store : Store) : Overlay where
  style := (store.setting? "style").bind RenderStyle.ofNameAnyCase?
  indent := (store.setting? "indent").bind indentOfText?
  lead := store.setting? "prefix"

theorem ofStore_eq
    (hnamed : ∀ value, store.setting? "style" = some value → ∃ style : RenderStyle, style.NamedBy value) :
    Overlay.ofStore store = .ok (storedOverlay store) := by
  have hstyle : Overlay.styleOfText (store.setting? "style") = .ok (storedOverlay store).style := by
    unfold storedOverlay
    cases hvalue : store.setting? "style" with
    | none => rfl
    | some value =>
      obtain ⟨style, hnamed⟩ := hnamed value hvalue
      simp only [Overlay.styleOfText, Option.bind_some, RenderStyle.ofNameAnyCase?_eq_some_iff.2 hnamed]
  unfold Overlay.ofStore
  rw [hstyle]
  rfl

theorem ofStore_of_unknown {value : String} (hvalue : store.setting? "style" = some value)
    (hnamed : ∀ style : RenderStyle, ¬ style.NamedBy value) :
    Overlay.ofStore store = .error (.unknownStyle value) := by
  have hnone : RenderStyle.ofNameAnyCase? value = none := by
    rw [Option.eq_none_iff_forall_ne_some]
    exact fun style hstyle => hnamed style (RenderStyle.ofNameAnyCase?_eq_some_iff.1 hstyle)
  have hstyle : Overlay.styleOfText (store.setting? "style") = .error (.unknownStyle value) := by
    simp only [hvalue, Overlay.styleOfText, hnone]
  unfold Overlay.ofStore
  rw [hstyle]
  rfl

/-- A store is read, or its style has no name. -/
theorem ofStore_cases (store : Store) :
    (∃ e, Overlay.ofStore store = .ok e) ∨ ∃ value, Overlay.ofStore store = .error (.unknownStyle value) := by
  by_cases hnamed : ∀ value, store.setting? "style" = some value → ∃ style : RenderStyle, style.NamedBy value
  · exact .inl ⟨_, ofStore_eq hnamed⟩
  · push Not at hnamed
    obtain ⟨value, hvalue, hnamed⟩ := hnamed
    exact .inr ⟨value, ofStore_of_unknown hvalue hnamed⟩

theorem ofEnvironment_of_store (h : host.store = .ok store) :
    Overlay.ofEnvironment host = (Overlay.ofStore store).mapError .settings := by
  unfold Overlay.ofEnvironment
  rw [h]
  rfl

theorem ofEnvironment_of_error {place : String} (h : host.store = .error place) :
    Overlay.ofEnvironment host = .error (.breach (.outOfReach place)) := by
  unfold Overlay.ofEnvironment
  rw [h]
  rfl

variable (host) in
theorem ofEnvironment_outcome :
    (∃ e, Overlay.ofEnvironment host = .ok e) ∨
      (∃ value, Overlay.ofEnvironment host = .error (.settings (.unknownStyle value))) ∨
      ∃ place, Overlay.ofEnvironment host = .error (.breach (.outOfReach place)) := by
  cases hstore : host.store with
  | error place => exact .inr (.inr ⟨place, ofEnvironment_of_error hstore⟩)
  | ok store =>
    rw [ofEnvironment_of_store hstore]
    obtain ⟨e, he⟩ | ⟨value, hvalue⟩ := ofStore_cases store
    · exact .inl ⟨e, by rw [he]; rfl⟩
    · exact .inr (.inl ⟨value, by rw [hvalue]; rfl⟩)

variable (hclear : IsClear host.environment)
include hclear

theorem environmentLayer_iff (hstore : host.store = .ok store) {overlay : Overlay} :
    EnvironmentLayer host.environment overlay ↔
      (∀ value, Gives host.environment "render.style" value → ∃ style : RenderStyle, style.NamedBy value) ∧
        overlay = storedOverlay store := by
  have hstyle (style : RenderStyle) : (storedOverlay store).style = some style ↔
      ∃ value, Gives host.environment "render.style" value ∧ style.NamedBy value := by
    simp only [← RenderStyle.ofNameAnyCase?_eq_some_iff]
    exact hclear.bind_setting?_eq_some_iff (by decide) ofText_style hstore
  have hindent (n : Nat) : (storedOverlay store).indent = some n ↔
      ∃ value, Gives host.environment "render.indent" value ∧ indentOfText? value = some n :=
    hclear.bind_setting?_eq_some_iff (by decide) ofText_indent hstore
  have hlead (value : String) : (storedOverlay store).lead = some value ↔
      Gives host.environment "render.prefix" value :=
    hclear.setting?_eq_some_iff (by decide) ofText_prefix hstore
  constructor
  · intro h
    have hstyles : overlay.style = (storedOverlay store).style :=
      Option.ext fun style => (h.style style).trans (hstyle style).symm
    have hindents : overlay.indent = (storedOverlay store).indent :=
      Option.ext fun n => (h.indent n).trans (hindent n).symm
    have hleads : overlay.lead = (storedOverlay store).lead :=
      Option.ext fun value => (h.lead value).trans (hlead value).symm
    refine ⟨h.named, ?_⟩
    cases overlay
    rw [Overlay.mk.injEq]
    exact ⟨hstyles, hindents, hleads⟩
  · rintro ⟨hnamed, rfl⟩
    exact ⟨hnamed, hstyle, hindent, hlead⟩

theorem EnvironmentLayer.ofEnvironment_eq (hfit : host.SettingsFit) {overlay : Overlay}
    (h : EnvironmentLayer host.environment overlay) : Overlay.ofEnvironment host = .ok overlay := by
  obtain ⟨store, hstore⟩ := hfit
  obtain ⟨hnamed, rfl⟩ := (environmentLayer_iff hclear hstore).1 h
  have hstored : Overlay.ofStore store = .ok (storedOverlay store) :=
    ofStore_eq fun value hvalue => hnamed value (gives_of_setting? ofText_style hstore hvalue)
  rw [ofEnvironment_of_store hstore, hstored]
  rfl

theorem EnvironmentFault.ofEnvironment_eq {p : Problem} (h : EnvironmentFault host p) :
    Overlay.ofEnvironment host = .error p := by
  cases h with
  | outOfReach hassignments hbefore hfar =>
    exact ofEnvironment_of_error (Store.putAll_eq_error_iff.2 ⟨_, _, _, _, hassignments, hbefore, hfar⟩)
  | unknownStyle hfit hgives hnamed =>
    obtain ⟨store, hstore⟩ := hfit
    have hvalue := (hclear.setting?_eq_some_iff (by decide) ofText_style hstore).2 hgives
    rw [ofEnvironment_of_store hstore, ofStore_of_unknown hvalue hnamed]
    rfl

/-- The environment is a layer or at fault. -/
theorem IsClear.environment_cases :
    (host.SettingsFit ∧ ∃ overlay, EnvironmentLayer host.environment overlay) ∨ ∃ p, EnvironmentFault host p := by
  cases hstore : host.store with
  | error place =>
    obtain ⟨_, _, _, _, hassignments, hbefore, hfar⟩ := Store.putAll_eq_error_iff.1 hstore
    exact .inr ⟨_, .outOfReach hassignments hbefore hfar⟩
  | ok store =>
    by_cases hnamed : ∀ value, Gives host.environment "render.style" value → ∃ style : RenderStyle, style.NamedBy value
    · exact .inl ⟨⟨store, hstore⟩, _, (environmentLayer_iff hclear hstore).2 ⟨hnamed, rfl⟩⟩
    · push Not at hnamed
      obtain ⟨value, hgives, hnamed⟩ := hnamed
      exact .inr ⟨_, .unknownStyle ⟨store, hstore⟩ hgives hnamed⟩

/-- The settings themselves always find their places, so a place that cannot be reached is none of theirs. -/
theorem not_prefix_of_put_eq_none {place value : String} {mid : Store} (hmem : (place, value) ∈ host.assignments)
    (hfar : mid.put host.listLimit value (Place.ofText place).path = none) : ¬ "render".toList <+: place.toList := by
  intro hprefix
  obtain ⟨name, hvariable, hname⟩ := gives_of_mem hmem
  obtain ⟨key, hkey⟩ := exists_ofText_eq (hclear.known _ hvariable place hname hprefix)
  rw [hkey] at hfar
  have hreach : [Place.Step.key "render", .key key].all (Place.Step.isReachable host.listLimit) = true := rfl
  obtain ⟨_, hput⟩ := Store.exists_put value hreach mid
  cases hfar.symm.trans hput

end Environment

end Grove
