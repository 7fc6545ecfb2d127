import Grove.Proofs.Outline.Reread
import Grove.Proofs.Settings.Load

/-!
# `Proofs.Outline.Rendering` — texts that are read and rendered

The trees that were read are gone through row by row when they are rendered, and each row comes from one line of the
text. So the trees drop out: rendering goes through the lines that are not blank and writes each of them in its
normal form (`outline_of_parse`). A line that has the lead is in normal form already.

The reader takes any number of spaces, but no more than `OutlineStyle.maxPadding` of them can be written. So rendering
breaks off at the first line that is wider than that (`outline_eq_error_iff`), although the text was accepted and the
settings with it (`rendered_of_wide_indent`).
-/

namespace Grove

open Text

/-! ## Lines -/

/-- Related elements have one image, so lists of them do. -/
theorem map_eq_map_of_forall₂ {α β γ : Type} {R : α → β → Prop} {f : α → γ} {g : β → γ} {l : List α} {m : List β}
    (h : List.Forall₂ R l m) (hfg : ∀ a b, R a b → g b = f a) : m.map g = l.map f := by
  induction h with
  | nil => rfl
  | cons hab _ ih => rw [List.map_cons, List.map_cons, hfg _ _ hab, ih]

namespace Text

/-- No line is longer than the text. -/
theorem length_le_of_mem_linesFrom {begun text line : List Char} (h : line ∈ linesFrom begun text) :
    line.length ≤ begun.length + text.length := by
  fun_induction linesFrom begun text with
  | case1 begun hempty => cases h
  | case2 begun hempty => simp_all
  | case3 begun rest ih =>
    rcases List.mem_cons.1 h with rfl | h
    · simp
    · have hle := ih h
      simp only [List.length_nil, List.length_cons] at hle ⊢
      omega
  | case4 begun rest ih =>
    rcases List.mem_cons.1 h with rfl | h
    · simp
    · have hle := ih h
      simp only [List.length_nil, List.length_cons] at hle ⊢
      omega
  | case5 begun c rest _ _ ih =>
    have hle := ih h
    simp only [List.length_cons] at hle ⊢
    omega

theorem length_le_of_mem_content {text line : List Char} (h : line ∈ content text) : line.length ≤ text.length := by
  simpa using length_le_of_mem_linesFrom (mem_content_iff.1 h).1

end Text

namespace Line

theorem width_le_length (line : List Char) : width line ≤ line.length :=
  (List.takeWhile_sublist _).length_le

/-- The line with the lead in its place: after the spaces, and before what is the rest of the line without it. -/
def normal (lead line : List Char) : List Char :=
  List.replicate (width line) ' ' ++ lead ++ stripLead lead (body line)

/-- A line that has the lead in its place is as it should be. -/
theorem normal_of_prefix {lead line : List Char} (h : lead <+: body line) : normal lead line = line := by
  rw [normal, List.append_assoc, append_stripLead, if_pos h, spaces_append_body]

/-- What is written for a row is the line that it comes from, in normal form. -/
theorem Means.written_eq {style : OutlineStyle} {line : List Char} {x : Nat × String} (h : Means style line x) :
    style.written x = normal style.lead.toList line := by
  have hcolumns := h.level_mul_indent
  obtain ⟨-, -, rfl⟩ := h
  rw [OutlineStyle.written, hcolumns, OutlineStyle.text, String.toList_ofList, normal, List.append_assoc]

end Line

/-! ## Rows -/

/-- Rows are written up to the first one that is too far to the right. -/
theorem OutlineStyle.mapM_line_eq (style : OutlineStyle) (L : List (Nat × String)) :
    (L.mapM fun x => style.line x.1 x.2)
      = ((L.map fun x => x.1 * style.indent).find? (maxPadding < ·)).elim
        (.ok (L.map fun x => String.ofList (style.written x)))
        fun columns => .error (.breach (.paddingTooWide columns)) := by
  induction L with
  | nil => rfl
  | cons x L ih =>
    rw [List.mapM_cons, List.map_cons, List.find?_cons, ih]
    by_cases hwide : maxPadding < x.1 * style.indent
    · rw [decide_eq_true hwide, line, if_pos hwide]
      rfl
    · rw [decide_eq_false hwide, line_eq (Nat.not_lt.1 hwide)]
      cases (L.map fun x => x.1 * style.indent).find? (maxPadding < ·) <;> rfl

namespace OutlineForest

variable {style : OutlineStyle} {text : String} {O : OutlineForest}

/-- **What is rendered for a text** that was read are its lines in normal form, up to the first one that is too
    wide. -/
theorem outline_of_parse (hparse : parse style text = .ok O) :
    O.outline style = ((content text.toList).find? fun line => OutlineStyle.maxPadding < Line.width line).elim
      (.ok (unlines ((content text.toList).map fun line => String.ofList (Line.normal style.lead.toList line))))
      fun line => .error (.breach (.paddingTooWide (Line.width line))) := by
  have hF := wellFormed_of_parse hparse
  have htrees := hF.mapM_subtree_eq (l := O.entries) fun n hn => (List.mem_filter.1 hn).2
  have hmeans := (parse_eq_iff (one_le_of_parse hparse)).1 ⟨O, hparse, htrees⟩
  rw [outline_eq_mapM hF, OutlineStyle.mapM_line_eq,
    map_eq_map_of_forall₂ hmeans fun _ _ h => h.level_mul_indent,
    map_eq_map_of_forall₂ hmeans fun _ _ h => congrArg String.ofList h.written_eq, List.find?_map]
  show unlines <$> Option.elim (Option.map _ ((content text.toList).find? fun line =>
    OutlineStyle.maxPadding < Line.width line)) _ _ = _
  cases (content text.toList).find? fun line => OutlineStyle.maxPadding < Line.width line <;> rfl

theorem outline_of_narrow (hparse : parse style text = .ok O)
    (hpadding : ∀ line ∈ content text.toList, Line.width line ≤ OutlineStyle.maxPadding) :
    O.outline style = .ok (unlines ((content text.toList).map fun line =>
      String.ofList (Line.normal style.lead.toList line))) := by
  have hnone : ((content text.toList).find? fun line => OutlineStyle.maxPadding < Line.width line) = none := by
    rw [List.find?_eq_none]
    intro line hline hwide
    exact Nat.not_lt.2 (hpadding line hline) (of_decide_eq_true hwide)
  rw [outline_of_parse hparse, hnone]
  rfl

/-- Rendering breaks off at the first line that is too wide. -/
theorem outline_eq_error_iff (hparse : parse style text = .ok O) {failure : Failure} :
    O.outline style = .error failure ↔
      ∃ before line after, content text.toList = before ++ line :: after ∧
        (∀ l ∈ before, Line.width l ≤ OutlineStyle.maxPadding) ∧ OutlineStyle.maxPadding < Line.width line ∧
        failure = .breach (.paddingTooWide (Line.width line)) := by
  have hfirst (line : List Char) :
      ((content text.toList).find? fun line => OutlineStyle.maxPadding < Line.width line) = some line ↔
        ∃ before after, content text.toList = before ++ line :: after ∧
          (∀ l ∈ before, Line.width l ≤ OutlineStyle.maxPadding) ∧ OutlineStyle.maxPadding < Line.width line := by
    rw [List.find?_eq_some_iff_append]
    simp only [decide_eq_true_eq, Bool.not_eq_true', decide_eq_false_iff_not, Nat.not_lt]
    exact ⟨fun ⟨hwide, before, after, hsplit, hbefore⟩ => ⟨before, after, hsplit, hbefore, hwide⟩,
      fun ⟨before, after, hsplit, hbefore, hwide⟩ => ⟨hwide, before, after, hsplit, hbefore⟩⟩
  rw [outline_of_parse hparse]
  constructor
  · intro herror
    cases hfound : (content text.toList).find? fun line => OutlineStyle.maxPadding < Line.width line with
    | none =>
      rw [hfound] at herror
      cases herror
    | some line =>
      rw [hfound] at herror
      obtain ⟨before, after, hsplit, hbefore, hwide⟩ := (hfirst line).1 hfound
      exact ⟨before, line, after, hsplit, hbefore, hwide, (Except.error.inj herror).symm⟩
  · rintro ⟨before, line, after, hsplit, hbefore, hwide, rfl⟩
    rw [(hfirst line).2 ⟨before, after, hsplit, hbefore, hwide⟩]
    rfl

/-- The spaces of a row are no more than the text is long. -/
theorem level_mul_indent_le_length {ts : List (Tree String)} (hparse : parse style text = .ok O)
    (htrees : O.entries.mapM O.forest.subtree = .ok ts) :
    ∀ t ∈ ts, ∀ x ∈ t.levelled 0, x.1 * style.indent ≤ text.length := by
  have hmeans := (parse_eq_iff (one_le_of_parse hparse)).1 ⟨O, hparse, htrees⟩
  intro t ht x hx
  obtain ⟨line, hline, h⟩ := exists_left_of_forall₂ hmeans x (List.mem_flatMap.2 ⟨t, ht, hx⟩)
  calc x.1 * style.indent
      = Line.width line := h.level_mul_indent
    _ ≤ line.length := Line.width_le_length line
    _ ≤ text.toList.length := length_le_of_mem_content hline
    _ = text.length := String.length_toList

/-- **A text that was read is rendered line by line**, as long as its lines are not too wide: each of them that is
    not blank is its spaces, the lead, and the rest of it without the lead. A text that has the lead in every such
    line only loses its blank lines and has a line feed at the end of each of the others. -/
theorem rendered_normal (style : OutlineStyle) (text : String) (O : OutlineForest) (hparse : parse style text = .ok O)
    (hpadding : ∀ line ∈ content text.toList, Line.width line ≤ 65535) :
    O.outline style = .ok (unlines ((content text.toList).map fun line => String.ofList
      (List.replicate (Line.width line) ' ' ++ style.lead.toList
        ++ Line.stripLead style.lead.toList (Line.body line)))) ∧
    ((∀ line ∈ content text.toList, style.lead.toList <+: Line.body line) →
      O.outline style = .ok (unlines ((content text.toList).map String.ofList))) := by
  have houtline := outline_of_narrow hparse hpadding
  refine ⟨houtline, fun hlead => ?_⟩
  have hlines : ((content text.toList).map fun line => String.ofList (Line.normal style.lead.toList line))
      = (content text.toList).map String.ofList :=
    List.map_congr_left fun line hline => congrArg String.ofList (Line.normal_of_prefix (hlead line hline))
  rwa [hlines] at houtline

/-- A blank line, a line without the lead and one that has it twice; and a text that has the lead in every line. -/
theorem rendered_normal_of_lenient :
    (∃ O, parse .standard "+- a\r\n\n  b \n  +- +- c" = .ok O ∧
      O.outline .standard = .ok "+- a\n  +- b \n  +- +- c\n") ∧
    ∃ O, parse .standard "+- a\r\n\n  +- b " = .ok O ∧ O.outline .standard = .ok "+- a\n  +- b \n" := by
  constructor
  · obtain ⟨O, hparse⟩ : ∃ O, parse .standard "+- a\r\n\n  b \n  +- +- c" = .ok O := ⟨_, rfl⟩
    have hcontent : content "+- a\r\n\n  b \n  +- +- c".toList
        = ["+- a".toList, "  b ".toList, "  +- +- c".toList] := by decide
    have houtline := (rendered_normal .standard _ O hparse (by rw [hcontent]; decide)).1
    rw [hcontent] at houtline
    exact ⟨O, hparse, houtline⟩
  · obtain ⟨O, hparse⟩ : ∃ O, parse .standard "+- a\r\n\n  +- b " = .ok O := ⟨_, rfl⟩
    have hcontent : content "+- a\r\n\n  +- b ".toList = ["+- a".toList, "  +- b ".toList] := by decide
    have houtline := (rendered_normal .standard _ O hparse (by rw [hcontent]; decide)).2 (by rw [hcontent]; decide)
    rw [hcontent] at houtline
    exact ⟨O, hparse, houtline⟩

/-- **Rendering what was read** succeeds exactly if no line is too wide. If one is, rendering breaks off, and it does so
    at the first of them. There is no other reason: the spaces to be written are never more than the text is long. -/
theorem rendered_outcome (style : OutlineStyle) (text : String) (O : OutlineForest)
    (hparse : parse style text = .ok O) :
    ((∃ rendered, O.outline style = .ok rendered) ↔ ∀ line ∈ content text.toList, Line.width line ≤ 65535) ∧
    (∀ failure, O.outline style = .error failure ↔
      ∃ before line after, content text.toList = before ++ line :: after ∧
        (∀ l ∈ before, Line.width l ≤ 65535) ∧ 65535 < Line.width line ∧
        failure = .breach (.paddingTooWide (Line.width line))) ∧
    ∃ ts, O.entries.mapM O.forest.subtree = .ok ts ∧
      ∀ t ∈ ts, ∀ x ∈ t.levelled 0, x.1 * style.indent ≤ text.length := by
  refine ⟨⟨?_, fun hpadding => ⟨_, outline_of_narrow hparse hpadding⟩⟩, fun failure => outline_eq_error_iff hparse, ?_⟩
  · rintro ⟨rendered, hok⟩ line hline
    rw [outline_of_parse hparse] at hok
    cases hfound : (content text.toList).find? fun line => OutlineStyle.maxPadding < Line.width line with
    | none => exact Nat.not_lt.1 fun hwide => List.find?_eq_none.1 hfound line hline (decide_eq_true hwide)
    | some first =>
      rw [hfound] at hok
      cases hok
  · obtain ⟨ts, htrees⟩ := exists_trees_of_parse hparse
    exact ⟨ts, htrees, level_mul_indent_le_length hparse htrees⟩

/-- A text whose lines are all narrow is rendered. -/
theorem rendered_outcome_of_lenient :
    ∃ O, parse .standard "+- a\r\n\n  b \n" = .ok O ∧ ∃ rendered, O.outline .standard = .ok rendered := by
  obtain ⟨O, hparse⟩ : ∃ O, parse .standard "+- a\r\n\n  b \n" = .ok O := ⟨_, rfl⟩
  have hcontent : content "+- a\r\n\n  b \n".toList = ["+- a".toList, "  b ".toList] := by decide
  exact ⟨O, hparse, (rendered_outcome .standard _ O hparse).1.2 (by rw [hcontent]; decide)⟩

/-- If a single level is too wide to be written, a text of two levels is read but not rendered. -/
theorem exists_outline_too_wide {k : Nat} (hk : OutlineStyle.maxPadding < k) :
    ∃ O, parse ⟨k, "+- "⟩ (String.ofList ("+- a\n".toList ++ List.replicate k ' ' ++ "+- b\n".toList)) = .ok O ∧
      O.outline ⟨k, "+- "⟩ = .error (.breach (.paddingTooWide k)) := by
  have hrows : [Tree.node "a" [Tree.node "b" []]].flatMap (Tree.levelled 0) = [(0, "a"), (1, "b")] := by simp
  have hkeeps : ∀ x ∈ [Tree.node "a" [Tree.node "b" []]].flatMap (Tree.levelled 0),
      OutlineStyle.standard.Keeps x.2 := by
    rw [hrows]
    decide
  have hlead : '\n' ∉ OutlineStyle.standard.lead.toList := by decide
  have htext : (String.ofList ("+- a\n".toList ++ List.replicate k ' ' ++ "+- b\n".toList)).toList
      = ([Tree.node "a" [Tree.node "b" []]].flatMap (Tree.levelled 0)).flatMap fun x =>
        OutlineStyle.written ⟨k, "+- "⟩ x ++ ['\n'] := by
    rw [hrows]
    simp [OutlineStyle.written, OutlineStyle.text]
  obtain ⟨O, hparse, htrees⟩ := parse_eq_of_keeps (Nat.one_le_of_lt hk) htext hlead hkeeps
  refine ⟨O, hparse, ?_⟩
  have hF := wellFormed_of_parse hparse
  have hentries := hF.mapM_subtree_eq (l := O.entries) fun n hn => (List.mem_filter.1 hn).2
  have htops := Except.ok.inj (hentries.symm.trans htrees)
  have hfound : ([(0, "a"), (1, "b")].map fun x : Nat × String => x.1 * k).find? (OutlineStyle.maxPadding < ·)
      = some k := by
    simp [hk]
  rw [outline_eq_mapM hF, htops, hrows, OutlineStyle.mapM_line_eq, hfound]
  rfl

/-- The settings accept an indentation of which not even one level can be written. -/
theorem rendered_of_wide_indent :
    Settings.load (Settings.homelessHost [("ARBOR_RENDER__INDENT", "65536")] .missing) none
      = .ok ⟨.outline, 65536, "+- "⟩ ∧
    ∃ O, parse ⟨65536, "+- "⟩ (String.ofList ("+- a\n".toList ++ List.replicate 65536 ' ' ++ "+- b\n".toList)) = .ok O ∧
      O.outline ⟨65536, "+- "⟩ = .error (.breach (.paddingTooWide 65536)) := by
  obtain ⟨O, hparse, houtline⟩ := exists_outline_too_wide (k := 65536) (by decide)
  exact ⟨rfl, O, hparse, houtline⟩

end OutlineForest

end Grove
