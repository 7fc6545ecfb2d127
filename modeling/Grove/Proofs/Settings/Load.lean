import Grove.Proofs.Settings.Environment
import Grove.Proofs.Settings.File
import Grove.Settings.Load

/-!
# `Proofs.Settings.Load` — which layer a setting comes from

What each of the layers comes to is said by a relation with one case for each way to get there: a file is no layer,
a layer or a fault (`FileLayer`, `FileFault`), and the environment likewise (`EnvironmentLayer`, `EnvironmentFault`). A
run of `load` goes through them in order and stops at the first that is at fault, so there are as many ways to fail as
there are stages (`LoadFault`), and one to succeed, on which each setting is the one that the highest layer gives
(`load_layered`).
-/

namespace Grove

/-- A computation whose successes and failures are described completely has no others. -/
theorem outcome_iff {ε α : Type} {x : Except ε α} {Good : α → Prop} {Bad : ε → Prop}
    (hgood : ∀ a, Good a → x = .ok a) (hbad : ∀ e, Bad e → x = .error e) (hall : (∃ a, Good a) ∨ ∃ e, Bad e) :
    (∀ a, x = .ok a ↔ Good a) ∧ ∀ e, x = .error e ↔ Bad e := by
  constructor
  · refine fun a => ⟨fun h => ?_, hgood a⟩
    rcases hall with ⟨b, hb⟩ | ⟨e, he⟩
    · cases (hgood b hb).symm.trans h
      exact hb
    · cases (hbad e he).symm.trans h
  · refine fun e => ⟨fun h => ?_, hbad e⟩
    rcases hall with ⟨b, hb⟩ | ⟨d, hd⟩
    · cases (hgood b hb).symm.trans h
    · cases (hbad d hd).symm.trans h
      exact hd

/-! ## Files -/

/-- What a file that may give settings comes to if nothing is wrong with it. -/
inductive FileLayer (host : Host) : Option String → Overlay → Prop
  | nowhere : FileLayer host none .empty
  | missing {path : String} (hlook : host.look path = .missing) : FileLayer host (some path) .empty
  | parsed {path content : String} {overlay : Overlay} (hlook : host.look path = .readable content)
      (hparse : Overlay.ofText? content = some overlay) : FileLayer host (some path) overlay

/-- What is wrong with a file. -/
inductive FileFault (host : Host) : Option String → SettingsFault → Prop
  | unreadable {path reason : String} (hlook : host.look path = .unreadable reason) :
      FileFault host (some path) (.unreadable path reason)
  | unparsable {path content : String} (hlook : host.look path = .readable content)
      (hparse : Overlay.ofText? content = none) : FileFault host (some path) (.unparsable path)

namespace Settings

section Files

variable {host : Host} {path : Option String}

theorem readLayer?_of_layer {overlay : Overlay} (h : FileLayer host path overlay) :
    readLayer? host path = .ok overlay := by
  cases h with
  | nowhere => rfl
  | missing hlook => simp only [readLayer?, readLayer, hlook]
  | parsed hlook hparse => simp only [readLayer?, readLayer, hlook, hparse]

theorem readLayer?_of_fault {fault : SettingsFault} (h : FileFault host path fault) :
    readLayer? host path = .error fault := by
  cases h with
  | unreadable hlook => simp only [readLayer?, readLayer, hlook]
  | unparsable hlook hparse => simp only [readLayer?, readLayer, hlook, hparse]

variable (host path)

/-- A file is a layer or at fault. -/
theorem file_cases : (∃ overlay, FileLayer host path overlay) ∨ ∃ fault, FileFault host path fault := by
  cases path with
  | none => exact .inl ⟨_, .nowhere⟩
  | some path =>
    cases hlook : host.look path with
    | missing => exact .inl ⟨_, .missing hlook⟩
    | unreadable reason => exact .inr ⟨_, .unreadable hlook⟩
    | readable content =>
      cases hparse : Overlay.ofText? content with
      | none => exact .inr ⟨_, .unparsable hlook hparse⟩
      | some overlay => exact .inl ⟨_, .parsed hlook hparse⟩

end Files

end Settings

/-- And not both. -/
theorem FileLayer.not_fault {host : Host} {path : Option String} {overlay : Overlay} {fault : SettingsFault}
    (h : FileLayer host path overlay) : ¬ FileFault host path fault := by
  intro hfault
  cases (Settings.readLayer?_of_layer h).symm.trans (Settings.readLayer?_of_fault hfault)

namespace Settings

/-- Each setting by itself is the one that the highest layer gives, or else the standard one. -/
def ofLayers (fromGlobal fromLocal fromEnvironment : Overlay) : Settings where
  style := (fromEnvironment.style <|> fromLocal.style <|> fromGlobal.style).getD .outline
  indent := (fromEnvironment.indent <|> fromLocal.indent <|> fromGlobal.indent).getD 2
  lead := (fromEnvironment.lead <|> fromLocal.lead <|> fromGlobal.lead).getD "+- "

theorem merge_eq_ofLayers (fromGlobal fromLocal fromEnvironment : Overlay) :
    ((standard.merge fromGlobal).merge fromLocal).merge fromEnvironment
      = ofLayers fromGlobal fromLocal fromEnvironment := by
  -- the merge of a layer asks the layers below only where it gives nothing itself
  have hgetD {α : Type} (a b c : Option α) (d : α) : a.getD (b.getD (c.getD d)) = (a <|> b <|> c).getD d := by
    cases a <;> cases b <;> cases c <;> rfl
  unfold merge ofLayers
  rw [hgetD, hgetD, hgetD]
  rfl

/-- The ways in which settings cannot be loaded, by the stage at which that shows. -/
inductive LoadFault (host : Host) (dir : Option String) : Problem → Prop
  | fromGlobal {fault : SettingsFault} (hfault : FileFault host (globalPath? host) fault) :
      LoadFault host dir (.settings fault)
  | fromLocal {g : Overlay} {fault : SettingsFault} (hglobal : FileLayer host (globalPath? host) g)
      (hfault : FileFault host (dir.map localPath) fault) : LoadFault host dir (.settings fault)
  | fromEnvironment {g l : Overlay} {p : Problem} (hglobal : FileLayer host (globalPath? host) g)
      (hlocal : FileLayer host (dir.map localPath) l) (hfault : EnvironmentFault host p) : LoadFault host dir p
  | zeroIndent {g l e : Overlay} (hglobal : FileLayer host (globalPath? host) g)
      (hlocal : FileLayer host (dir.map localPath) l) (hfit : host.SettingsFit)
      (henvironment : EnvironmentLayer host.environment e) (hzero : (ofLayers g l e).indent = 0) :
      LoadFault host dir (.settings .zeroIndent)

/-- The settings in order that all layers come to. -/
structure Loaded (host : Host) (dir : Option String) (s : Settings) : Prop where
  layers : ∃ g l e, FileLayer host (globalPath? host) g ∧ FileLayer host (dir.map localPath) l ∧
    EnvironmentLayer host.environment e ∧ s = ofLayers g l e
  fit : host.SettingsFit
  indent : s.indent ≠ 0

section Stages

variable {host : Host} {dir : Option String} {g l : Overlay}

theorem load_of_globalFault {fault : SettingsFault} (hfault : FileFault host (globalPath? host) fault) :
    load host dir = .error (.settings fault) := by
  unfold load
  rw [readLayer?_of_fault hfault]
  rfl

variable (hglobal : FileLayer host (globalPath? host) g)
include hglobal

theorem load_of_localFault {fault : SettingsFault} (hfault : FileFault host (dir.map localPath) fault) :
    load host dir = .error (.settings fault) := by
  unfold load
  rw [readLayer?_of_layer hglobal, readLayer?_of_fault hfault]
  rfl

variable (hlocal : FileLayer host (dir.map localPath) l)
include hlocal

theorem load_of_environmentFault {p : Problem} (hfault : Overlay.ofEnvironment host = .error p) :
    load host dir = .error p := by
  unfold load
  rw [readLayer?_of_layer hglobal, readLayer?_of_layer hlocal, hfault]
  rfl

/-- With no layer at fault, the settings are those of all layers, put in order. -/
theorem load_of_layers {e : Overlay} (henvironment : Overlay.ofEnvironment host = .ok e) :
    load host dir = (validate (ofLayers g l e)).mapError .settings := by
  unfold load
  rw [readLayer?_of_layer hglobal, readLayer?_of_layer hlocal, henvironment]
  show (validate (((standard.merge g).merge l).merge e)).mapError _ = _
  rw [merge_eq_ofLayers]

end Stages

/-- What loading comes to in any environment: settings in order, a fault of one layer or of all of them together, or
    the end of the run. -/
theorem load_outcome (host : Host) (dir : Option String) :
    (∃ s, load host dir = .ok s ∧ s.indent ≠ 0) ∨
      (∃ fault, load host dir = .error (.settings fault) ∧ fault ≠ .zeroOutlineIndent) ∨
      ∃ place, load host dir = .error (.breach (.outOfReach place)) := by
  have hfile {path : Option String} {fault : SettingsFault} (h : FileFault host path fault) :
      fault ≠ .zeroOutlineIndent := by
    cases h <;> nofun
  obtain ⟨g, hglobal⟩ | ⟨fault, hfault⟩ := file_cases host (globalPath? host)
  case inr => exact .inr (.inl ⟨fault, load_of_globalFault hfault, hfile hfault⟩)
  obtain ⟨l, hlocal⟩ | ⟨fault, hfault⟩ := file_cases host (dir.map localPath)
  case inr => exact .inr (.inl ⟨fault, load_of_localFault hglobal hfault, hfile hfault⟩)
  obtain ⟨e, he⟩ | ⟨value, hvalue⟩ | ⟨place, hplace⟩ := ofEnvironment_outcome host
  · rw [load_of_layers hglobal hlocal he, validate]
    by_cases hzero : (ofLayers g l e).indent = 0
    · rw [if_pos hzero]
      exact .inr (.inl ⟨_, rfl, nofun⟩)
    · rw [if_neg hzero]
      exact .inl ⟨_, rfl, hzero⟩
  · exact .inr (.inl ⟨_, load_of_environmentFault hglobal hlocal hvalue, nofun⟩)
  · exact .inr (.inr ⟨_, load_of_environmentFault hglobal hlocal hplace⟩)

section Load

variable {host : Host} {dir : Option String} (hclear : IsClear host.environment)
include hclear

theorem load_of_loaded {s : Settings} (h : Loaded host dir s) : load host dir = .ok s := by
  obtain ⟨g, l, e, hglobal, hlocal, henvironment, rfl⟩ := h.layers
  rw [load_of_layers hglobal hlocal (henvironment.ofEnvironment_eq hclear h.fit), validate, if_neg h.indent]
  rfl

theorem load_of_fault {p : Problem} (h : LoadFault host dir p) : load host dir = .error p := by
  cases h with
  | fromGlobal hfault => exact load_of_globalFault hfault
  | fromLocal hglobal hfault => exact load_of_localFault hglobal hfault
  | fromEnvironment hglobal hlocal hfault =>
    exact load_of_environmentFault hglobal hlocal (hfault.ofEnvironment_eq hclear)
  | zeroIndent hglobal hlocal hfit henvironment hzero =>
    rw [load_of_layers hglobal hlocal (henvironment.ofEnvironment_eq hclear hfit), validate, if_pos hzero]
    rfl

variable (dir) in
theorem load_cases : (∃ s, Loaded host dir s) ∨ ∃ p, LoadFault host dir p := by
  obtain ⟨g, hglobal⟩ | ⟨fault, hfault⟩ := file_cases host (globalPath? host)
  case inr => exact .inr ⟨_, .fromGlobal hfault⟩
  obtain ⟨l, hlocal⟩ | ⟨fault, hfault⟩ := file_cases host (dir.map localPath)
  case inr => exact .inr ⟨_, .fromLocal hglobal hfault⟩
  obtain ⟨hfit, e, henvironment⟩ | ⟨p, hfault⟩ := hclear.environment_cases
  case inr => exact .inr ⟨_, .fromEnvironment hglobal hlocal hfault⟩
  by_cases hzero : (ofLayers g l e).indent = 0
  · exact .inr ⟨_, .zeroIndent hglobal hlocal hfit henvironment hzero⟩
  · exact .inl ⟨_, ⟨g, l, e, hglobal, hlocal, henvironment, rfl⟩, hfit, hzero⟩

end Load

/-- **Settings in layers.** Loading succeeds exactly if neither file is at fault, every setting of the environment finds
    its place, the style of the environment has a name and the indentation of all layers together is not zero; each
    setting is then the one of the highest layer that gives it. What it fails with is what the first stage at fault
    comes to. Settings that are within reach by themselves find their places in any order; one that is not and is left
    alone finds none; and one that does not find its place is none of the three. -/
theorem load_layered {host : Host} (hclear : IsClear host.environment) (dir : Option String) :
    ((∃ s, load host dir = .ok s) ↔
      (∀ fault, ¬ FileFault host (globalPath? host) fault) ∧ (∀ fault, ¬ FileFault host (dir.map localPath) fault) ∧
      host.SettingsFit ∧
      (∀ value, Gives host.environment "render.style" value → ∃ style : RenderStyle, style.NamedBy value) ∧
      ∀ g l e, FileLayer host (globalPath? host) g → FileLayer host (dir.map localPath) l →
        EnvironmentLayer host.environment e → (ofLayers g l e).indent ≠ 0) ∧
    (∀ s, load host dir = .ok s ↔ Loaded host dir s) ∧
    (∀ p, load host dir = .error p ↔ LoadFault host dir p) ∧
    (IsInReach host.listLimit host.environment → host.SettingsFit) ∧
    (IsStranded host.listLimit host.environment → ¬ host.SettingsFit) ∧
    ∀ place, load host dir = .error (.breach (.outOfReach place)) →
      (∃ value, Gives host.environment place value) ∧ ¬ "render".toList <+: place.toList := by
  obtain ⟨hok, herror⟩ :=
    outcome_iff (fun s => load_of_loaded hclear) (fun p => load_of_fault hclear) (load_cases dir hclear)
  refine ⟨⟨?_, ?_⟩, hok, herror, settingsFit_of_inReach, not_settingsFit_of_stranded, ?_⟩
  · rintro ⟨s, hs⟩
    obtain ⟨⟨g, l, e, hglobal, hlocal, henvironment, -⟩, hfit, -⟩ := (hok s).1 hs
    refine ⟨fun _ => hglobal.not_fault, fun _ => hlocal.not_fault, hfit, henvironment.named, ?_⟩
    intro g l e hglobal hlocal henvironment hzero
    cases hs.symm.trans ((herror _).2 (.zeroIndent hglobal hlocal hfit henvironment hzero))
  · rintro ⟨hglobal, hlocal, ⟨store, hstore⟩, hnamed, hindent⟩
    obtain ⟨g, hg⟩ := (file_cases ..).resolve_right fun ⟨fault, hfault⟩ => hglobal fault hfault
    obtain ⟨l, hl⟩ := (file_cases ..).resolve_right fun ⟨fault, hfault⟩ => hlocal fault hfault
    have he := (environmentLayer_iff hclear hstore).2 ⟨hnamed, rfl⟩
    exact ⟨_, (hok _).2 ⟨⟨g, l, _, hg, hl, he, rfl⟩, ⟨store, hstore⟩, hindent g l _ hg hl he⟩⟩
  · intro place hplace
    cases (herror _).1 hplace with
    | fromEnvironment _ _ hfault =>
      cases hfault with
      | @outOfReach _ _ _ value _ hassignments _ hfar =>
        have hmem : (place, value) ∈ host.assignments := by
          rw [hassignments]
          exact List.mem_append_right _ List.mem_cons_self
        exact ⟨⟨_, gives_of_mem hmem⟩, not_prefix_of_put_eq_none hclear hmem hfar⟩

/-- A run without a home, so that there is no global file, and with the same file at every path. -/
def homelessHost (environment : List (String × String)) (file : FileState) : Host where
  environment := environment
  workingDirectory := none
  accountHome := none
  terminal := false
  look _ := file

/-- The environment wins over the file for style and indentation, so that the zero in the file does no harm, and
    leaves the lead to it. -/
theorem load_layered_of_zero :
    Loaded (homelessHost [("ARBOR_RENDER__STYLE", "TREE"), ("arbor_render__indent", "4")]
      (.readable (String.ofList (tomlLines ⟨.outline, 0, "* "⟩).flatten))) (some "w") ⟨.tree, 4, "* "⟩ := by
  refine ((load_layered ⟨by decide, by decide⟩ _).2.1 _).1 ?_
  have hread : Overlay.ofText? (String.ofList (tomlLines ⟨.outline, 0, "* "⟩).flatten) = _ :=
    ofText?_tomlLines (by decide)
  have hmissing : Overlay.ofEnvironment (homelessHost
      [("ARBOR_RENDER__STYLE", "TREE"), ("arbor_render__indent", "4")] .missing) = .ok ⟨some .tree, some 4, none⟩ := by
    decide +kernel
  -- the environment gives the same with any file
  have henvironment (file : FileState) := (rfl : Overlay.ofEnvironment (homelessHost
      [("ARBOR_RENDER__STYLE", "TREE"), ("arbor_render__indent", "4")] file) = _).trans hmissing
  rw [load_of_layers .nowhere (.parsed rfl hread) (henvironment _)]
  rfl

/-- A variable that gives none of the settings ends the run, although there is no file and nothing else is set. -/
theorem load_of_position :
    let host := homelessHost [("ARBOR_X[-1]", "1")] .missing
    IsClear host.environment ∧ FileLayer host (globalPath? host) .empty ∧ FileLayer host none .empty ∧
      (∀ place ∈ settingPlaces, ∀ value, ¬ Gives host.environment place value) ∧
      load host none = .error (.breach (.outOfReach "x[-1]")) := by
  refine ⟨⟨by decide, by decide⟩, .nowhere, .nowhere, ?_, rfl⟩
  rintro place hplace value ⟨name, hmem, hname⟩
  obtain ⟨rfl, rfl⟩ := Prod.mk.inj (List.mem_singleton.1 hmem)
  obtain rfl := Option.some.inj (hname.symm.trans (rfl : settingOfName? "ARBOR_X[-1]" = some "x[-1]"))
  revert hplace
  decide

/-! ## Printed settings -/

/-- The environment gives none of the settings, and what else it gives finds its place. So it is if no variable is for
    this program (`IsSilent.of_foreign`). -/
structure IsSilent (host : Host) : Prop where
  fit : host.SettingsFit
  none : ∀ place ∈ settingPlaces, ∀ value, ¬ Gives host.environment place value

theorem IsSilent.of_foreign {host : Host} (h : ∀ v ∈ host.environment, settingOfName? v.1 = Option.none) :
    IsSilent host where
  fit := settingsFit_of_inReach fun v hv place hplace => by
    rw [h v hv] at hplace
    cases hplace
  none := by
    rintro place - value ⟨name, hmem, hname⟩
    cases (h _ hmem).symm.trans hname

theorem ofEnvironment_of_silent {host : Host} (h : IsSilent host) : Overlay.ofEnvironment host = .ok .empty := by
  obtain ⟨store, hstore⟩ := h.fit
  have hnone {place name : String} (hmem : place ∈ settingPlaces)
      (hplace : Place.ofText place = ⟨"render", [.key name]⟩) : store.setting? name = Option.none := by
    rw [Option.eq_none_iff_forall_ne_some]
    exact fun value hvalue => h.none place hmem value (gives_of_setting? hplace hstore hvalue)
  have hstyle : store.setting? "style" = Option.none := hnone (by decide) ofText_style
  have hindent : store.setting? "indent" = Option.none := hnone (by decide) ofText_indent
  have hlead : store.setting? "prefix" = Option.none := hnone (by decide) ofText_prefix
  rw [ofEnvironment_of_store hstore, ofStore_eq (by rw [hstyle]; exact fun _ => nofun), storedOverlay, hstyle, hindent,
    hlead]
  rfl

/-- **Printed settings are read back.** Settings can be printed unless their indentation is too large for TOML. Their
    text gives all three of them, so it makes any others equal to them; and as the only file, with nothing in the
    environment, it is what is loaded if they are in order. -/
theorem toToml_read_back (s : Settings) :
    (∀ fault, s.toToml = .error fault ↔ 9223372036854775807 < s.indent ∧ fault = .indentTooLarge) ∧
    ∀ text, s.toToml = .ok text →
      ∃ overlay, Overlay.ofText? text = some overlay ∧
        overlay.style = some s.style ∧ overlay.indent = some s.indent ∧ overlay.lead = some s.lead ∧
        (∀ base : Settings, base.merge overlay = s) ∧
        ∀ host dir, host.look (localPath dir) = .readable text →
          readLayer host (localPath dir) = .ok overlay ∧
          ((∀ path, globalPath? host = some path → host.look path = .missing) → IsSilent host →
            1 ≤ s.indent → load host (some dir) = .ok s) := by
  refine ⟨fun fault => toToml_eq_error_iff, ?_⟩
  intro text htext
  obtain ⟨hindent, rfl⟩ := toToml_eq_ok_iff.1 htext
  have hread := ofText?_tomlLines hindent
  refine ⟨_, hread, rfl, rfl, rfl, fun base => rfl, ?_⟩
  intro host dir hlook
  have hlocal : FileLayer host ((some dir).map localPath) _ := .parsed hlook hread
  refine ⟨readLayer?_of_layer hlocal, ?_⟩
  intro hmissing hsilent hpositive
  have hglobal : FileLayer host (globalPath? host) .empty := by
    cases hpath : globalPath? host with
    | none => exact .nowhere
    | some path => exact .missing (hmissing path hpath)
  rw [load_of_layers hglobal hlocal (ofEnvironment_of_silent hsilent)]
  show (validate s).mapError _ = _
  rw [validate, if_neg (by omega)]
  rfl

/-- A lead that has to be written with escapes over several lines. -/
theorem toToml_read_back_of_quotes :
    ∃ text, toToml ⟨.tree, 3, "\r\n'''\"\"\"\\\n"⟩ = .ok text ∧
      load (homelessHost [("HOME", "")] (.readable text)) (some "w") = .ok ⟨.tree, 3, "\r\n'''\"\"\"\\\n"⟩ := by
  refine ⟨_, rfl, ?_⟩
  obtain ⟨_, -, -, -, -, -, hload⟩ := (toToml_read_back ⟨.tree, 3, "\r\n'''\"\"\"\\\n"⟩).2 _ rfl
  have hsilent (file : FileState) : IsSilent (homelessHost [("HOME", "")] file) :=
    .of_foreign (by decide : ∀ v ∈ [("HOME", "")], settingOfName? v.1 = Option.none)
  exact (hload (homelessHost [("HOME", "")] _) "w" rfl).2 nofun (hsilent _) (by decide)

end Settings

end Grove
