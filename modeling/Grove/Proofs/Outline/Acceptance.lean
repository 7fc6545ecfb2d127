import Grove.Proofs.Outline.Progress

/-!
# `Proofs.Outline.Acceptance` — which texts are outlines

Whether a line may stand where it does depends on the lines above it only through the level of the last of them
that is not blank (`levelAbove`). A reader does not look at that line, but at how many levels are open: there is
always one more than that level, because every line that is placed leaves its own level open and none deeper
(`Progress.OpenBelow`). So a text is read if all of its lines fit (`AllFit`), and a reader stops at the first line
that does not (`FirstFault`), which is the only thing that can stop it.
-/

namespace Grove

open Text

/-! ## Lines and the lines above them -/

namespace Line

variable {style : OutlineStyle} {above : Option Nat} {line : List Char}

/-- The level on which a line stands. -/
def level (style : OutlineStyle) (line : List Char) : Nat :=
  width line / style.indent

/-- No other white space follows the leading spaces. -/
def Spaced (line : List Char) : Prop :=
  ∀ c, (body line).head? = some c → isBlank c = false

/-- The line may stand below lines the last of which is on the level `above`, or below no line at all. -/
structure Fits (style : OutlineStyle) (above : Option Nat) (line : List Char) : Prop where
  spaced : Spaced line
  multiple : style.indent ∣ width line
  step : level style line ≤ above.elim 0 (· + 1)

/-- What is wrong with a line that may not stand there: the first of the three conditions that it fails. -/
inductive Fault (style : OutlineStyle) (above : Option Nat) (line : List Char) : LineFault → Prop
  | notSpaces : ¬ Spaced line → Fault style above line .notSpaces
  | betweenLevels : Spaced line → ¬ style.indent ∣ width line →
      Fault style above line (.betweenLevels (width line) style.indent)
  | jump : Spaced line → style.indent ∣ width line → above.elim 0 (· + 1) < level style line →
      Fault style above line (.jump (level style line) (above.getD 0))

theorem spaced_iff : Spaced line ↔ (body line).head?.any isBlank = false := by
  unfold Spaced
  cases (body line).head? <;> simp

theorem Fault.not_fits {fault : LineFault} (h : Fault style above line fault) : ¬ Fits style above line := by
  intro hfits
  cases h with
  | notSpaces hspaced => exact hspaced hfits.spaced
  | betweenLevels _ hmultiple => exact hmultiple hfits.multiple
  | jump _ _ hjump => exact absurd hfits.step (Nat.not_le.2 hjump)

/-- A reader that has one level more open than that of the line above reads the lines that fit. -/
theorem read_of_fits (h : Fits style above line) :
    ∃ x, read style (above.elim 0 (· + 1)) line = .ok x ∧ x.1 = level style line := by
  refine ⟨_, read_eq_ok_iff.2 ⟨⟨spaced_iff.1 h.spaced, Nat.mod_eq_zero_of_dvd h.multiple, rfl⟩, h.step⟩, rfl⟩

/-- It says what is wrong with any other. -/
theorem read_of_not_fits (h : ¬ Fits style above line) :
    ∃ fault, read style (above.elim 0 (· + 1)) line = .error fault ∧ Fault style above line fault := by
  unfold read
  by_cases hspaced : Spaced line
  · rw [if_neg (by simp [spaced_iff.1 hspaced])]
    by_cases hmultiple : style.indent ∣ width line
    · have hjump : above.elim 0 (· + 1) < level style line :=
        Nat.lt_of_not_le fun hstep => h ⟨hspaced, hmultiple, hstep⟩
      have habove : above.elim 0 (· + 1) - 1 = above.getD 0 := by cases above <;> rfl
      rw [if_neg (not_not.2 (Nat.mod_eq_zero_of_dvd hmultiple)), ← level, if_pos hjump, habove]
      exact ⟨_, rfl, .jump hspaced hmultiple hjump⟩
    · rw [if_pos fun hzero => hmultiple (Nat.dvd_of_mod_eq_zero hzero)]
      exact ⟨_, rfl, .betweenLevels hspaced hmultiple⟩
  · rw [if_pos (by simpa using mt spaced_iff.2 hspaced)]
    exact ⟨_, rfl, .notSpaces hspaced⟩

/-- Only one thing is wrong with a line. -/
theorem Fault.unique {f g : LineFault} (hf : Fault style above line f) (hg : Fault style above line g) : f = g := by
  cases hf <;> cases hg <;> first | rfl | contradiction

end Line

/-! ## Texts -/

/-- The level of the last line that is not blank. -/
def levelAbove (style : OutlineStyle) (before : List (List Char)) : Option Nat :=
  (before.filter fun line => !line.all isBlank).getLast?.map (Line.level style)

/-- Every line that is not blank fits below the lines before it. -/
def AllFit (style : OutlineStyle) (ls : List (List Char)) : Prop :=
  ∀ before line, before ++ [line] <+: ls → line.all isBlank = false →
    Line.Fits style (levelAbove style before) line

/-- The first line that does not fit has this number, counted from 1 with blank lines, and this is wrong with it. -/
def FirstFault (style : OutlineStyle) (ls : List (List Char)) (number : Nat) (fault : LineFault) : Prop :=
  ∃ before line, before ++ [line] <+: ls ∧ AllFit style before ∧ line.all isBlank = false ∧
    Line.Fault style (levelAbove style before) line fault ∧ number = before.length + 1

section Texts

variable {style : OutlineStyle} {ls before : List (List Char)} {line : List Char}

theorem levelAbove_blank (h : line.all isBlank = true) :
    levelAbove style (before ++ [line]) = levelAbove style before := by
  rw [levelAbove, List.filter_append, List.filter_cons_of_neg (by simp [h]), List.filter_nil, List.append_nil,
    ← levelAbove]

theorem levelAbove_line (h : line.all isBlank = false) :
    levelAbove style (before ++ [line]) = some (Line.level style line) := by
  rw [levelAbove, List.filter_append, List.filter_cons_of_pos (by simp [h]), List.filter_nil, List.getLast?_concat,
    Option.map_some]

theorem allFit_nil : AllFit style [] := by
  intro before line hprefix
  simp at hprefix

theorem AllFit.append (h : AllFit style before)
    (hline : line.all isBlank = false → Line.Fits style (levelAbove style before) line) :
    AllFit style (before ++ [line]) := by
  intro front last hprefix hlast
  rcases List.prefix_concat_iff.1 hprefix with heq | hprefix
  · obtain ⟨rfl, hlines⟩ := List.append_inj' heq rfl
    obtain rfl := List.singleton_inj.1 hlines
    exact hline hlast
  · exact h front last hprefix hlast

theorem FirstFault.not_allFit {number : Nat} {fault : LineFault} (h : FirstFault style ls number fault) :
    ¬ AllFit style ls := by
  intro hall
  obtain ⟨front, last, hprefix, -, hlast, hfault, -⟩ := h
  exact hfault.not_fits (hall front last hprefix hlast)

/-- No line before the first one that does not fit is another that does not. -/
theorem FirstFault.le {m n : Nat} {f g : LineFault} (hf : FirstFault style ls m f) (hg : FirstFault style ls n g) :
    m ≤ n := by
  obtain ⟨front, last, hprefix, hfront, -, -, rfl⟩ := hf
  obtain ⟨front', last', hprefix', -, hlast', hfault', rfl⟩ := hg
  by_contra hlt
  have hbefore : front' ++ [last'] <+: front := by
    refine List.prefix_of_prefix_length_le hprefix' ((List.prefix_append ..).trans hprefix) ?_
    rw [List.length_append, List.length_singleton]
    omega
  exact hfault'.not_fits (hfront front' last' hbefore hlast')

/-- There is only one first line. -/
theorem FirstFault.unique {m n : Nat} {f g : LineFault} (hf : FirstFault style ls m f)
    (hg : FirstFault style ls n g) : m = n ∧ f = g := by
  have hnumber : m = n := Nat.le_antisymm (hf.le hg) (hg.le hf)
  refine ⟨hnumber, ?_⟩
  obtain ⟨front, last, hprefix, -, -, hfault, rfl⟩ := hf
  obtain ⟨front', last', hprefix', -, -, hfault', rfl⟩ := hg
  have hlength : (front ++ [last]).length = (front' ++ [last']).length := by
    rw [List.length_append, List.length_append]
    exact hnumber
  have hsame := (List.prefix_of_prefix_length_le hprefix hprefix' hlength.le).eq_of_length hlength
  obtain ⟨rfl, hlines⟩ := List.append_inj' hsame rfl
  obtain rfl := List.singleton_inj.1 hlines
  exact hfault.unique hfault'

end Texts

/-! ## Reading -/

namespace Progress

variable {s : Progress} {L : List (Nat × String)} {style : OutlineStyle}

/-- What has been built has one level more open than that of the last line, and no level if there is none. -/
def OpenBelow (s : Progress) (above : Option Nat) : Prop :=
  s.trail.length = above.elim 0 (· + 1)

/-- A line that fits is read and placed, and then its own level is the deepest one open. -/
theorem Good.place_of_fits {above : Option Nat} {line : List Char} (h : Good s L) (hopen : s.OpenBelow above)
    (hfits : Line.Fits style above line) :
    ∃ x t, Line.read style s.trail.length line = .ok x ∧ s.place x.1 x.2 = .ok t ∧ Good t (L ++ [x]) ∧
      t.OpenBelow (some (Line.level style line)) := by
  obtain ⟨x, hread, hlevel⟩ := Line.read_of_fits hfits
  rw [← hopen] at hread
  obtain ⟨t, hplace, ht, hlength⟩ := h.place (Line.read_eq_ok_iff.1 hread).2 x.2
  refine ⟨x, t, hread, hplace, ht, ?_⟩
  rw [← hlevel]
  exact hlength

/-- **A reader stops at the first line that does not fit, and nowhere else.** -/
theorem Good.readLines_cases (rest before : List (List Char)) (h : Good s L)
    (hopen : s.OpenBelow (levelAbove style before)) (hbefore : AllFit style before) :
    (∃ s', s.readLines style (before.length + 1) rest = .ok s' ∧ AllFit style (before ++ rest)) ∨
      ∃ number fault, s.readLines style (before.length + 1) rest = .error (.outline number fault) ∧
        FirstFault style (before ++ rest) number fault := by
  induction rest generalizing s L before with
  | nil => exact Or.inl ⟨s, rfl, by rwa [List.append_nil]⟩
  | cons line rest ih =>
    have hsplit : before ++ line :: rest = before ++ [line] ++ rest := by simp
    have hnumber : before.length + 1 = (before ++ [line]).length := by simp
    rw [readLines, hsplit]
    by_cases hblank : line.all isBlank = true
    · -- a blank line changes neither what is open nor the level above
      rw [if_pos hblank, hnumber]
      apply ih (before ++ [line]) h
      · rwa [levelAbove_blank hblank]
      · exact hbefore.append fun hline => absurd (hblank.symm.trans hline) (by decide)
    rw [if_neg hblank]
    rw [Bool.not_eq_true] at hblank
    by_cases hfits : Line.Fits style (levelAbove style before) line
    · obtain ⟨x, t, hread, hplace, ht, htopen⟩ := h.place_of_fits hopen hfits
      rw [hread, hnumber]
      simp only [hplace]
      apply ih (before ++ [line]) ht
      · rwa [levelAbove_line hblank]
      · exact hbefore.append fun _ => hfits
    · obtain ⟨fault, hread, hfault⟩ := Line.read_of_not_fits hfits
      rw [hopen, hread]
      exact Or.inr ⟨_, fault, rfl, before, line, List.prefix_append _ rest, hbefore, hblank, hfault, rfl⟩

end Progress

namespace OutlineForest

/-- **Acceptance.** A text is read exactly if all of its lines fit, and otherwise exactly the first fault is
    reported, with the number of its line; nothing else can go wrong. -/
theorem parse_outcome (style : OutlineStyle) (text : String) (hindent : 1 ≤ style.indent) :
    ((∃ O, parse style text = .ok O) ↔ AllFit style (lines text.toList)) ∧
      ∀ problem, parse style text = .error problem ↔
        ∃ number fault, FirstFault style (lines text.toList) number fault ∧ problem = .outline number fault := by
  rcases Progress.good_start.readLines_cases (lines text.toList) [] rfl allFit_nil with
    ⟨s, hread, hall⟩ | ⟨number, fault, hread, hfirst⟩
  · have hparse : parse style text = .ok s.toOutlineForest := by
      rw [parse, if_neg (by omega), show Progress.start.readLines style 1 (lines text.toList) = .ok s from hread]
    rw [hparse]
    refine ⟨⟨fun _ => hall, fun _ => ⟨_, rfl⟩⟩, fun problem => ⟨?_, ?_⟩⟩
    · intro hproblem
      cases hproblem
    · rintro ⟨number, fault, hfirst, -⟩
      exact absurd hall hfirst.not_allFit
  · have hparse : parse style text = .error (.outline number fault) := by
      rw [parse, if_neg (by omega),
        show Progress.start.readLines style 1 (lines text.toList) = .error (.outline number fault) from hread]
    rw [hparse]
    refine ⟨⟨?_, fun hall => absurd hall hfirst.not_allFit⟩, fun problem => ⟨?_, ?_⟩⟩
    · rintro ⟨O, hok⟩
      cases hok
    · intro hproblem
      exact ⟨number, fault, hfirst, (Except.error.inj hproblem).symm⟩
    · rintro ⟨m, g, hg, rfl⟩
      obtain ⟨rfl, rfl⟩ := hfirst.unique hg
      rfl

/-- The empty line is counted, and the level above is that of the line before it. -/
theorem parse_outcome_of_jump :
    let style : OutlineStyle := ⟨2, "+- "⟩
    let text := "+- a\n\n      +- b"
    let problem := Problem.outline 3 (.jump 3 0)
    1 ≤ style.indent ∧ FirstFault style (lines text.toList) 3 (.jump 3 0) ∧ parse style text = .error problem ∧
      problem.message = "outline line 3: jumps to level 3 below level 0" := by
  intro style text problem
  let first : List Char := ['+', '-', ' ', 'a']
  let third : List Char := [' ', ' ', ' ', ' ', ' ', ' ', '+', '-', ' ', 'b']
  have hlines : lines text.toList = [first, [], third] := by decide
  have htop : Line.Fits style (levelAbove style []) first := ⟨Line.spaced_iff.2 (by decide), by decide, by decide⟩
  have hbefore : AllFit style [first, []] := (allFit_nil.append fun _ => htop).append nofun
  have hfault : Line.Fault style (levelAbove style [first, []]) third (.jump 3 0) := by
    have habove : levelAbove style [first, []] = some 0 := by decide
    have hlevel : Line.level style third = 3 := by decide
    rw [habove, ← hlevel]
    exact .jump (Line.spaced_iff.2 (by decide)) (by decide) (by decide)
  have hfirst : FirstFault style (lines text.toList) 3 (.jump 3 0) := by
    rw [hlines]
    exact ⟨[first, []], third, List.prefix_refl _, hbefore, by decide, hfault, rfl⟩
  exact ⟨by decide, hfirst, ((parse_outcome style text (by decide)).2 problem).2 ⟨3, _, hfirst, rfl⟩, rfl⟩

end OutlineForest

end Grove
