import Grove.CommandLine.Run
import Grove.Proofs.Outline.Acceptance
import Grove.Proofs.Outline.Lookup
import Grove.Proofs.Outline.Rendering

/-!
# `Proofs.CommandLine.Outcome` — how a task ends

A task on a file loads the settings, reads the outline, works out what it has to say (`answer`) and prints that in
one piece. So there is one place where it writes to the standard output, and everything that can fail comes before
it. The ways to fail are listed in the order of the stages, each with its exit code (`TaskFault`): a run of a task is
either at fault at one of them or succeeds (`execute_outcome`).

That no other failure is possible rests on two facts about what comes before: settings that were loaded are in order,
and a forest that was read is well-formed, so that listings, statistics and drawings have answers.
-/

namespace Grove

open Text

/-! ## Outlines that were read -/

namespace OutlineForest

variable {style : OutlineStyle} {text : String} {O : OutlineForest}

/-- A text is read, or one of its lines is at fault. -/
theorem parse_cases (hindent : style.indent ≠ 0) (text : String) :
    (∃ O, parse style text = .ok O) ∨ ∃ number fault, parse style text = .error (.outline number fault) := by
  have hread : (∃ s, Progress.start.readLines style 1 (lines text.toList) = .ok s) ∨
      ∃ number fault, Progress.start.readLines style 1 (lines text.toList) = .error (.outline number fault) := by
    rcases Progress.good_start.readLines_cases (lines text.toList) [] rfl allFit_nil with
      ⟨s, hs, -⟩ | ⟨number, fault, hfault, -⟩
    · exact .inl ⟨s, hs⟩
    · exact .inr ⟨number, fault, hfault⟩
  unfold parse
  rw [if_neg hindent]
  obtain ⟨s, hs⟩ | ⟨number, fault, hfault⟩ := hread
  · exact .inl ⟨s.toOutlineForest, by rw [hs]⟩
  · exact .inr ⟨number, fault, by rw [hfault]⟩

/-- A text without nodes is one with blank lines only. -/
theorem roots_eq_nil_iff_of_parse (h : parse style text = .ok O) : O.roots = [] ↔ content text.toList = [] := by
  obtain ⟨s, hread, rfl⟩ := exists_readLines_of_parse h
  obtain ⟨M, hM, hmeans⟩ := Progress.good_start.rows_of_readLines hread
  have hrows : s.roots = [] ↔ M = [] := by
    -- each root has a row, its own
    have hrow : ∀ r ∈ s.roots, s.forest.rows r ≠ [] := by
      intro r hr
      rw [Forest.rows, hM.wellFormed.preorder_shape (hM.contains_root r hr)]
      exact List.cons_ne_nil _ _
    have hlisting : s.toOutlineForest.rows = M := hM.rows_eq
    rw [← hlisting, rows, List.flatMap_eq_nil_iff]
    constructor
    · intro hnil r hr
      rw [hnil] at hr
      cases hr
    · intro hnil
      rw [List.eq_nil_iff_forall_not_mem]
      exact fun r hr => hrow r hr (hnil r hr)
  have hcontent : content text.toList = [] ↔ M = [] := by
    rw [← List.length_eq_zero_iff, ← List.length_eq_zero_iff, content, hmeans.length_eq]
  rw [hrows, hcontent]

end OutlineForest

/-! ## Jobs -/

namespace Job

variable {β γ : Type} {out out' : Output}

theorem bind_of_ok {m : Job β} {k : β → Job γ} {b : β} (h : m out = .ok b out') : (m >>= k) out = k b out' := by
  simp only [bind, EStateM.bind, h]

theorem bind_of_error {m : Job β} {k : β → Job γ} {fault : Fault} (h : m out = .error fault out') :
    (m >>= k) out = .error fault out' := by
  simp only [bind, EStateM.bind, h]

theorem require_ok {b : β} : require (.ok b) out = .ok b out := rfl

/-- To go on with what is made of an answer is to go on with the answer. -/
theorem require_map (answer : Except Problem β) (f : β → γ) (k : γ → Job Unit) :
    (require (answer.map f) >>= k) = (require answer >>= fun b => k (f b)) := by
  cases answer <;> rfl

end Job

open Job

/-! ## Tasks -/

/-- The tasks that work with the settings: all but those that print a fixed text. -/
def Task.UsesSettings : Task → Prop
  | .configTemplate | .completion _ => False
  | _ => True

namespace Invocation

/-- What a task on a file has to say about the outline in it. -/
def answer (colours : Bool) (s : Settings) (O : OutlineForest) : Task → Except Problem String
  | .render _ style =>
    match style.getD s.style with
    | .outline => (O.outline s.outlineStyle).mapError .ofFailure
    | .tree => O.box.mapError .ofFailure
  | .walk _ order =>
    ((O.walk order).mapError .ofFailure).map fun values => unlines (values.map (" ".intercalate ·))
  | .path _ start stop => (O.pathValues start stop).map fun values => " -> ".intercalate values ++ "\n"
  | .stats _ => (O.stats.mapError .ofFailure).map fun stats => String.join (stats.map (statsText colours))
  | .configShow | .configTemplate | .completion _ => .ok ""

/-- A file is read with the settings that are loaded, and its text is an outline. -/
structure Reads (host : Host) (dir : Option String) (file : String) (s : Settings) (text : String)
    (O : OutlineForest) : Prop where
  load : Settings.load host dir = .ok s
  look : host.look file = .readable text
  parse : OutlineForest.parse s.outlineStyle text = .ok O

/-- The output after that, with a warning if the outline has no nodes. -/
def warned (colours : Bool) (file text : String) (before : Output) : Output :=
  if content text.toList = [] then
    { before with notices := before.notices ++ (paint colours yellow "Warning" ++ ": " ++ file ++ ": no nodes\n") }
  else
    before

section Stages

variable {host : Host} {dir : Option String} {t : Task} {file text : String} {s : Settings} {O : OutlineForest}
  (colours : Bool) (before : Output)

theorem readOutline_of_reads (h : Reads host dir file s text O) :
    readOutline host colours s file before = .ok O (warned colours file text before) := by
  have hempty : O.roots.isEmpty = decide (content text.toList = []) := by
    rw [Bool.eq_iff_iff, List.isEmpty_iff, decide_eq_true_iff, OutlineForest.roots_eq_nil_iff_of_parse h.parse]
  unfold readOutline warned
  rw [h.look]
  show (require (OutlineForest.parse s.outlineStyle text) >>= _) before = _
  rw [h.parse, bind_of_ok require_ok, hempty]
  by_cases hnone : content text.toList = []
  · rw [if_pos hnone, decide_eq_true hnone]
    rfl
  · rw [if_neg hnone, decide_eq_false hnone]
    rfl

/-- Loaded settings are handed on with the outline. -/
theorem prepare_eq (hload : Settings.load host dir = .ok s) :
    prepare host colours dir file = readOutline host colours s file >>= fun O => pure (s, O) := by
  unfold prepare
  rw [hload]
  rfl

theorem prepare_of_reads (h : Reads host dir file s text O) :
    prepare host colours dir file before = .ok (s, O) (warned colours file text before) := by
  rw [prepare_eq colours h.load, bind_of_ok (readOutline_of_reads colours before h)]
  rfl

theorem prepare_of_load_error {p : Problem} (h : Settings.load host dir = .error p) :
    prepare host colours dir file before = .error (.problem p) before := by
  unfold prepare
  rw [h]
  rfl

theorem prepare_of_not_readable (hload : Settings.load host dir = .ok s)
    (hlook : ∀ text, host.look file ≠ .readable text) :
    prepare host colours dir file before = .error (.problem (.unreadable file)) before := by
  have hread : readOutline host colours s file before = .error (.problem (.unreadable file)) before := by
    unfold readOutline
    cases hfile : host.look file with
    | missing => rfl
    | unreadable reason => rfl
    | readable text => exact absurd hfile (hlook text)
  rw [prepare_eq colours hload, bind_of_error hread]

theorem prepare_of_parse_error (hload : Settings.load host dir = .ok s) (hlook : host.look file = .readable text)
    {p : Problem} (hparse : OutlineForest.parse s.outlineStyle text = .error p) :
    prepare host colours dir file before = .error (.problem p) before := by
  have hread : readOutline host colours s file before = .error (.problem p) before := by
    unfold readOutline
    rw [hlook]
    show (require (OutlineForest.parse s.outlineStyle text) >>= _) before = _
    rw [hparse]
    rfl
  rw [prepare_eq colours hload, bind_of_error hread]

/-- **A task on a file** works out what it has to say once the outline was read, and prints it. -/
theorem perform_eq (hfile : t.file? = some file) :
    perform host colours dir t =
      prepare host colours dir file >>= fun x => require (answer colours x.1 x.2 t) >>= print := by
  cases t with
  | render file' style =>
    obtain rfl := Option.some.inj hfile
    apply bind_congr
    rintro ⟨s, O⟩
    -- which of the two it is depends on settings that are not known before
    unfold answer
    dsimp only
    cases style.getD s.style <;> rfl
  | walk | path | stats =>
    obtain rfl := Option.some.inj hfile
    apply bind_congr
    rintro ⟨s, O⟩
    exact (require_map _ _ print).symm
  | configShow | configTemplate | completion => cases hfile

theorem perform_of_prepare_error (hfile : t.file? = some file) {fault : Fault}
    (h : prepare host colours dir file before = .error fault before) :
    perform host colours dir t before = .error fault before := by
  rw [perform_eq colours hfile, bind_of_error h]

theorem perform_of_load_error (huses : t.UsesSettings) {p : Problem} (h : Settings.load host dir = .error p) :
    perform host colours dir t before = .error (.problem p) before := by
  cases t with
  | render | walk | path | stats =>
    exact perform_of_prepare_error colours before rfl (prepare_of_load_error colours before h)
  | configShow =>
    unfold perform
    rw [h]
    rfl
  | configTemplate | completion => cases huses

end Stages

/-! ## Faults -/

/-- The ways in which a task fails that uses the settings, by the stage at which that shows, each with the exit code
    that reports it. -/
inductive TaskFault (host : Host) (dir : Option String) : Task → Problem → Nat → Prop
  | settings {t : Task} {fault : SettingsFault} (hload : Settings.load host dir = .error (.settings fault)) :
      TaskFault host dir t (.settings fault) 78
  | outOfReach {t : Task} {place : String} (hload : Settings.load host dir = .error (.breach (.outOfReach place))) :
      TaskFault host dir t (.breach (.outOfReach place)) 101
  | tooLarge {s : Settings} (hload : Settings.load host dir = .ok s) (hlarge : 9223372036854775807 < s.indent) :
      TaskFault host dir .configShow (.settings .indentTooLarge) 78
  | unreadable {t : Task} {file : String} {s : Settings} (hfile : t.file? = some file)
      (hload : Settings.load host dir = .ok s) (hlook : ∀ text, host.look file ≠ .readable text) :
      TaskFault host dir t (.unreadable file) 66
  | malformed {t : Task} {file text : String} {s : Settings} {number : Nat} {fault : LineFault}
      (hfile : t.file? = some file) (hload : Settings.load host dir = .ok s)
      (hlook : host.look file = .readable text)
      (hparse : OutlineForest.parse s.outlineStyle text = .error (.outline number fault)) :
      TaskFault host dir t (.outline number fault) 65
  | startNotFound {file start stop text : String} {s : Settings} {O : OutlineForest}
      (h : Reads host dir file s text O) (hstart : ∀ n, O.forest.value n ≠ .ok start) :
      TaskFault host dir (.path file start stop) (.valueNotFound start) 65
  | stopNotFound {file start stop text : String} {s : Settings} {O : OutlineForest} {a : NodeId}
      (h : Reads host dir file s text O) (hstart : O.IsFirst start a) (hstop : ∀ n, O.forest.value n ≠ .ok stop) :
      TaskFault host dir (.path file start stop) (.valueNotFound stop) 65
  | notAncestor {file start stop text : String} {s : Settings} {O : OutlineForest} {a d : NodeId}
      (h : Reads host dir file s text O) (hstart : O.IsFirst start a) (hstop : O.IsFirst stop d)
      (hup : ¬ O.forest.Ancestor a d) :
      TaskFault host dir (.path file start stop) (.tree (.notAnAncestor a d)) 65

/-- What a task gives notice of, whatever is logged besides: that an outline has no nodes, if it was read and has no
    line that is not blank, and else nothing. -/
inductive Told (host : Host) (dir : Option String) (colours : Bool) (t : Task) (before out : Output) : Prop
  | warning {file text : String} {s : Settings} {O : OutlineForest} (hfile : t.file? = some file)
      (h : Reads host dir file s text O) (hempty : content text.toList = [])
      (hout : out.notices = before.notices ++ (paint colours yellow "Warning" ++ ": " ++ file ++ ": no nodes\n"))
  | nothing (hnone : ∀ file s text O, t.file? = some file → Reads host dir file s text O → content text.toList ≠ [])
      (hout : out.notices = before.notices)

section Faults

variable {host : Host} {dir : Option String} {t : Task} {file text : String} {s : Settings} {O : OutlineForest}
  {colours : Bool} {before out : Output}

theorem stdout_warned : (warned colours file text before).stdout = before.stdout := by
  unfold warned
  split <;> rfl

theorem told_of_reads (hfile : t.file? = some file) (h : Reads host dir file s text O)
    (hout : out.notices = (warned colours file text before).notices) : Told host dir colours t before out := by
  unfold warned at hout
  by_cases hempty : content text.toList = []
  · rw [if_pos hempty] at hout
    exact .warning hfile h hempty hout
  · rw [if_neg hempty] at hout
    refine .nothing ?_ hout
    intro file' s' text' O' hfile' h'
    obtain rfl := Option.some.inj (hfile.symm.trans hfile')
    cases h.look.symm.trans h'.look
    exact hempty

theorem told_of_not_reads (h : ∀ file s text O, t.file? = some file → ¬ Reads host dir file s text O) :
    Told host dir colours t before before :=
  .nothing (fun file s text O hfile hreads => absurd hreads (h file s text O hfile)) rfl

variable (colours before)

/-- A task that fails after its outline was read has written nothing but perhaps the warning. -/
theorem fails_of_answer_error (hfile : t.file? = some file) (h : Reads host dir file s text O) {p : Problem}
    (hanswer : answer colours s O t = .error p) :
    ∃ out, perform host colours dir t before = .error (.problem p) out ∧ out.stdout = before.stdout ∧
      Told host dir colours t before out := by
  refine ⟨warned colours file text before, ?_, stdout_warned, told_of_reads hfile h rfl⟩
  rw [perform_eq colours hfile, bind_of_ok (prepare_of_reads colours before h), hanswer]
  rfl

/-- A value that no node has is not found. -/
theorem find_of_absent {value : String} (h : Reads host dir file s text O)
    (habsent : ∀ n, O.forest.value n ≠ .ok value) : O.find value = .error (.valueNotFound value) := by
  have hF := OutlineForest.wellFormed_of_parse h.parse
  refine (OutlineForest.find_eq_error_iff hF).2 ⟨fun n hn hvalue => habsent n ?_, rfl⟩
  exact Forest.value_eq_ok_iff.2 ⟨OutlineForest.contains_of_mem_nodes hF hn, hvalue⟩

/-- A value is that of a first node or of none. -/
theorem isFirst_or_absent (h : Reads host dir file s text O) (value : String) :
    (∃ n, O.IsFirst value n) ∨ ∀ n, O.forest.value n ≠ .ok value := by
  have hF := OutlineForest.wellFormed_of_parse h.parse
  cases hfind : O.find value with
  | ok n => exact .inl ⟨n, (OutlineForest.find_eq_ok_iff hF).1 hfind⟩
  | error p =>
    refine .inr fun n hvalue => ?_
    obtain ⟨hn, hvalue⟩ := Forest.value_eq_ok_iff.1 hvalue
    exact ((OutlineForest.find_eq_error_iff hF).1 hfind).1 n (OutlineForest.mem_nodes_of_parse h.parse hn) hvalue

/-- **A task at fault fails**, and it has written nothing to the standard output. -/
theorem perform_of_fault (huses : t.UsesSettings) {p : Problem} {code : Nat} (h : TaskFault host dir t p code) :
    ∃ out, perform host colours dir t before = .error (.problem p) out ∧ out.stdout = before.stdout ∧
      Told host dir colours t before out := by
  -- most faults show before the outline is read, so that there is nothing to tell
  have hearly (hrun : perform host colours dir t before = .error (.problem p) before)
      (hno : ∀ file s text O, t.file? = some file → ¬ Reads host dir file s text O) :
      ∃ out, perform host colours dir t before = .error (.problem p) out ∧ out.stdout = before.stdout ∧
        Told host dir colours t before out :=
    ⟨before, hrun, rfl, told_of_not_reads hno⟩
  cases h with
  | settings hload =>
    refine hearly (perform_of_load_error colours before huses hload) ?_
    intro _ _ _ _ _ hreads
    cases hload.symm.trans hreads.load
  | outOfReach hload =>
    refine hearly (perform_of_load_error colours before huses hload) ?_
    intro _ _ _ _ _ hreads
    cases hload.symm.trans hreads.load
  | @tooLarge s hload hlarge =>
    have htoml : s.toToml = .error .indentTooLarge := Settings.toToml_eq_error_iff.2 ⟨hlarge, rfl⟩
    refine hearly ?_ nofun
    unfold perform
    rw [hload]
    show (requireSettings s.toToml >>= print) before = _
    rw [htoml]
    rfl
  | unreadable hfile hload hlook =>
    refine hearly (perform_of_prepare_error colours before hfile
      (prepare_of_not_readable colours before hload hlook)) ?_
    intro _ _ text _ hfile' hreads
    obtain rfl := Option.some.inj (hfile.symm.trans hfile')
    exact hlook text hreads.look
  | malformed hfile hload hlook hparse =>
    refine hearly (perform_of_prepare_error colours before hfile
      (prepare_of_parse_error colours before hload hlook hparse)) ?_
    intro _ _ _ _ hfile' hreads
    obtain rfl := Option.some.inj (hfile.symm.trans hfile')
    cases hload.symm.trans hreads.load
    cases hlook.symm.trans hreads.look
    cases hparse.symm.trans hreads.parse
  | @startNotFound file start stop _ _ O hreads hstart =>
    refine fails_of_answer_error colours before rfl hreads ?_
    rw [answer, OutlineForest.pathValues_of_start_error (find_of_absent hreads hstart)]
    rfl
  | @stopNotFound file start stop _ _ O a hreads hstart hstop =>
    have hF := OutlineForest.wellFormed_of_parse hreads.parse
    refine fails_of_answer_error colours before rfl hreads ?_
    rw [answer, OutlineForest.pathValues_of_stop_error ((OutlineForest.find_eq_ok_iff hF).2 hstart)
      (find_of_absent hreads hstop)]
    rfl
  | @notAncestor file start stop _ _ O a d hreads hstart hstop hup =>
    have hF := OutlineForest.wellFormed_of_parse hreads.parse
    refine fails_of_answer_error colours before rfl hreads ?_
    rw [answer, OutlineForest.pathValues_of_first hF hstart hstop, if_neg]
    · rfl
    · rwa [hF.mem_chain_iff (hstop.contains hF)]

/-- A render as an outline is within the limit if no line that was read is indented too deeply. -/
def WithinPadding (host : Host) (dir : Option String) : Task → Prop
  | .render file style => ∀ s text O, Reads host dir file s text O → style.getD s.style = .outline →
      ∀ line ∈ content text.toList, Line.width line ≤ 65535
  | _ => True

/-- What a task has to say about an outline that was read can be said, but for a path that is not there. -/
theorem answer_cases (hfile : t.file? = some file) (h : Reads host dir file s text O)
    (hpadding : WithinPadding host dir t) :
    (∃ said, answer colours s O t = .ok said) ∨ ∃ p code, TaskFault host dir t p code := by
  have hF := OutlineForest.wellFormed_of_parse h.parse
  cases t with
  | render file' style =>
    obtain rfl := Option.some.inj hfile
    unfold answer
    cases hstyle : style.getD s.style with
    | outline =>
      have houtline := OutlineForest.outline_of_narrow h.parse (hpadding s text O h hstyle)
      exact .inl ⟨_, by simp only [hstyle, houtline]; rfl⟩
    | tree =>
      obtain ⟨drawn, hbox, -⟩ := OutlineForest.box_eq hF
      exact .inl ⟨drawn, by simp only [hstyle, hbox]; rfl⟩
  | walk file' order =>
    rw [answer, OutlineForest.walk_eq hF]
    exact .inl ⟨_, rfl⟩
  | stats file' =>
    rw [answer, OutlineForest.stats_eq hF]
    exact .inl ⟨_, rfl⟩
  | path file' start stop =>
    obtain rfl := Option.some.inj hfile
    obtain ⟨a, ha⟩ | habsent := isFirst_or_absent h start
    case inr => exact .inr ⟨_, _, .startNotFound h habsent⟩
    obtain ⟨d, hd⟩ | habsent := isFirst_or_absent h stop
    case inr => exact .inr ⟨_, _, .stopNotFound h ha habsent⟩
    by_cases hup : O.forest.Ancestor a d
    · rw [answer, OutlineForest.pathValues_of_first hF ha hd, if_pos ((hF.mem_chain_iff (hd.contains hF)).2 hup)]
      exact .inl ⟨_, rfl⟩
    · exact .inr ⟨_, _, .notAncestor h ha hd hup⟩
  | configShow | configTemplate | completion => cases hfile

/-- **A task that uses the settings is at fault or succeeds.** -/
theorem perform_cases (huses : t.UsesSettings) (hpadding : WithinPadding host dir t) :
    (∃ p code, TaskFault host dir t p code) ∨
      ∃ out, perform host colours dir t before = .ok () out ∧ Told host dir colours t before out := by
  -- a stage that is passed hands on what the next one needs: here an indentation that the reader takes
  obtain ⟨s, hload, hindent⟩ | ⟨fault, hload, -⟩ | ⟨place, hload⟩ := Settings.load_outcome host dir
  case inr.inl => exact .inl ⟨_, _, .settings hload⟩
  case inr.inr => exact .inl ⟨_, _, .outOfReach hload⟩
  cases hfile : t.file? with
  | some file =>
    cases hlook : host.look file with
    | missing => exact .inl ⟨_, _, .unreadable hfile hload fun _ => by rw [hlook]; nofun⟩
    | unreadable reason => exact .inl ⟨_, _, .unreadable hfile hload fun _ => by rw [hlook]; nofun⟩
    | readable text =>
      have hpositive : s.outlineStyle.indent ≠ 0 := hindent
      obtain ⟨O, hparse⟩ | ⟨number, fault, hparse⟩ := OutlineForest.parse_cases hpositive text
      case inr => exact .inl ⟨_, _, .malformed hfile hload hlook hparse⟩
      have hreads : Reads host dir file s text O := ⟨hload, hlook, hparse⟩
      obtain ⟨said, hsaid⟩ | hfault := answer_cases colours hfile hreads hpadding
      case inr => exact .inl hfault
      refine .inr ⟨{ warned colours file text before with
        stdout := (warned colours file text before).stdout ++ said }, ?_, told_of_reads hfile hreads rfl⟩
      rw [perform_eq colours hfile, bind_of_ok (prepare_of_reads colours before hreads), hsaid]
      rfl
  | none =>
    cases t with
    | configShow =>
      cases htoml : s.toToml with
      | error fault =>
        obtain ⟨hlarge, -⟩ := Settings.toToml_eq_error_iff.1 htoml
        exact .inl ⟨_, _, .tooLarge hload hlarge⟩
      | ok said =>
        refine .inr ⟨{ before with stdout := before.stdout ++ said }, ?_, .nothing nofun rfl⟩
        unfold perform
        rw [hload]
        show (requireSettings s.toToml >>= print) before = _
        rw [htoml]
        rfl
    | render | walk | path | stats => cases hfile
    | configTemplate | completion => cases huses

omit colours before in
/-- The codes that report faults, none of which is the reader's own about the indentation. -/
theorem TaskFault.code_eq {p : Problem} {code : Nat} (h : TaskFault host dir t p code) :
    (Fault.problem p).exitCode = code ∧ code ∈ [65, 66, 78, 101] ∧ p ≠ .settings .zeroOutlineIndent := by
  cases h with
  | @settings _ fault hload =>
    refine ⟨rfl, by decide, ?_⟩
    rintro ⟨⟩
    -- loading has no faults of the reader
    obtain ⟨_, hok, -⟩ | ⟨fault, herror, hother⟩ | ⟨_, hbreach⟩ := Settings.load_outcome host dir
    · cases hload.symm.trans hok
    · cases hload.symm.trans herror
      exact hother rfl
    · cases hload.symm.trans hbreach
  | outOfReach | tooLarge | unreadable | malformed | startNotFound | stopNotFound | notAncestor =>
    exact ⟨rfl, by decide, nofun⟩

end Faults

/-- **How a run of a task ends.** A run at fault fails with that problem, is reported with the exit code of the stage
    at which the fault shows, and has written nothing to the standard output; a run at none succeeds. Either way it
    gives notice of an outline that was read and has nothing in it, and of nothing else. So a failed run is never
    reported as a wrong use of the command line or as an error inside the program, and it is the settings that are at
    fault if the indentation is, not the reader. -/
theorem execute_outcome {host : Host} {i : Invocation} {t : Task} (htask : i.task = some t) (huses : t.UsesSettings)
    (hpadding : WithinPadding host (i.settingsDirectory? host) t) (colours : Bool) (before : Output) :
    (∀ p code, TaskFault host (i.settingsDirectory? host) t p code →
      ∃ out, i.execute host colours before = .error (.problem p) out ∧
        (Report.ofJob colours (i.execute host colours) before).exitCode = code ∧ out.stdout = before.stdout ∧
        Told host (i.settingsDirectory? host) colours t before out) ∧
    ((∀ p code, ¬ TaskFault host (i.settingsDirectory? host) t p code) →
      ∃ out, i.execute host colours before = .ok () out ∧
        (Report.ofJob colours (i.execute host colours) before).exitCode = 0 ∧
        Told host (i.settingsDirectory? host) colours t before out) ∧
    ∀ fault out, i.execute host colours before = .error fault out →
      out.stdout = before.stdout ∧ fault.exitCode ∉ [ExitCode.usage, ExitCode.software] ∧
        fault ≠ .problem (.settings .zeroOutlineIndent) := by
  have hexecute : i.execute host colours = perform host colours (i.settingsDirectory? host) t := by
    rw [execute, htask]
  rw [hexecute]
  have hfault {p : Problem} {code : Nat} (h : TaskFault host (i.settingsDirectory? host) t p code) :=
    perform_of_fault colours before huses h
  refine ⟨?_, ?_, ?_⟩
  · intro p code h
    obtain ⟨out, hrun, hsilent, htold⟩ := hfault h
    refine ⟨out, hrun, ?_, hsilent, htold⟩
    rw [Report.ofJob, hrun]
    exact h.code_eq.1
  · intro hnone
    obtain ⟨p, code, h⟩ | ⟨out, hrun, htold⟩ := perform_cases colours before huses hpadding
    · exact absurd h (hnone p code)
    · exact ⟨out, hrun, by rw [Report.ofJob, hrun], htold⟩
  · -- a run that failed was at fault at some stage, so it is one of those above
    intro fault out hrun
    obtain ⟨p, code, h⟩ | ⟨out', hrun', -⟩ := perform_cases colours before huses hpadding
    · obtain ⟨out', hrun', hsilent, -⟩ := hfault h
      cases hrun.symm.trans hrun'
      obtain ⟨hcode, hmem, hother⟩ := h.code_eq
      refine ⟨hsilent, ?_, fun heq => hother (Fault.problem.inj heq)⟩
      rw [hcode]
      revert hmem
      simp only [List.mem_cons, List.not_mem_nil, or_false]
      rintro (rfl | rfl | rfl | rfl) <;> decide
    · cases hrun.symm.trans hrun'

/-- An outline with a line between two levels. -/
theorem execute_outcome_of_malformed :
    (Report.ofJob false (execute (Settings.homelessHost [] (.readable "a\n b\n")) false
      ⟨0, false, none, some (.render "f" none)⟩) Output.empty).exitCode = 65 := by
  have hfault : TaskFault (Settings.homelessHost [] (.readable "a\n b\n")) none (.render "f" none)
      (.outline 2 (.betweenLevels 1 2)) 65 :=
    .malformed (s := Settings.standard) rfl rfl rfl rfl
  have hpadding : WithinPadding (Settings.homelessHost [] (.readable "a\n b\n")) none (.render "f" none) := by
    intro s text O h hstyle
    cases h.look
    decide
  obtain ⟨_, -, hcode, -⟩ := (execute_outcome (i := ⟨0, false, none, some (.render "f" none)⟩) rfl trivial hpadding
    false Output.empty).1 _ _ hfault
  exact hcode

/-- A variable that gives none of the settings ends the run. -/
theorem run_of_position :
    let report := Program.run (Settings.homelessHost [("ARBOR_X[-1]", "1")] .missing) ["config", "show"]
    report.exitCode = 101 ∧ report.stdout = "" :=
  ⟨rfl, rfl⟩

end Invocation

end Grove
