import Grove.Proofs.Outline.Progress
import Mathlib.Data.List.Forall2

/-!
# `Proofs.Outline.Rows` — single rows as text

A row is written as spaces, the lead and the value (`OutlineStyle.written`). Read back, its line has lost a
carriage return at its end if there was one (`lines_append_newline_eq`). What is left means the row again exactly
if the lead and the value together begin with something other than white space and end with something other than
a carriage return (`Keeps.means`, `keeps_of_means`): the spaces would otherwise be counted with what follows
them, and a lost character cannot be made up for by the lead, which is taken off only where all of it is there.
-/

namespace Grove

open Text

/-- Whatever stands on the right is related to something on the left. -/
theorem exists_left_of_forall₂ {α β : Type} {R : α → β → Prop} {l : List α} {m : List β}
    (h : List.Forall₂ R l m) : ∀ y ∈ m, ∃ x ∈ l, R x y := by
  induction h with
  | nil => simp
  | @cons x y l m hxy _ ih =>
    intro z hz
    rcases List.mem_cons.1 hz with rfl | hz
    · exact ⟨x, List.mem_cons_self .., hxy⟩
    · obtain ⟨w, hw, hwz⟩ := ih z hz
      exact ⟨w, List.mem_cons_of_mem x hw, hwz⟩

/-! ## Lines of a text -/

namespace Text

/-- The lines of a text that are not blank. -/
def content (text : List Char) : List (List Char) :=
  (lines text).filter fun line => !line.all isBlank

theorem mem_content_iff {text line : List Char} :
    line ∈ content text ↔ line ∈ lines text ∧ line.all isBlank = false := by
  rw [content, List.mem_filter, Bool.not_eq_true']

/-- The line without a carriage return at its end. -/
def dropReturn (line : List Char) : List Char :=
  if line.getLast? = some '\r' then line.dropLast else line

theorem linesFrom_append_return {line : List Char} (begun rest : List Char) (hfeed : '\n' ∉ line) :
    linesFrom begun (line ++ '\r' :: '\n' :: rest) = (begun.reverse ++ line) :: linesFrom [] rest := by
  induction line generalizing begun with
  | nil => simp [linesFrom]
  | cons c line ih =>
    rw [List.mem_cons, not_or] at hfeed
    rw [List.cons_append, linesFrom]
    · rw [ih (c :: begun) hfeed.2]
      simp
    · exact Ne.symm hfeed.1
    · -- a carriage return further back does not stand before the line feed
      rintro tail rfl htail
      cases line with
      | nil => simp at htail
      | cons d line => simp_all

/-- A line that is written is read back without a carriage return at its end. -/
theorem lines_append_newline_eq {line : List Char} (rest : List Char) (hfeed : '\n' ∉ line) :
    lines (line ++ '\n' :: rest) = dropReturn line :: lines rest := by
  unfold dropReturn
  by_cases hreturn : line.getLast? = some '\r'
  · obtain ⟨front, rfl⟩ := List.getLast?_eq_some_iff.1 hreturn
    have hfront : '\n' ∉ front := fun h => hfeed (List.mem_append_left _ h)
    rw [if_pos hreturn, List.dropLast_concat, List.append_assoc]
    exact linesFrom_append_return [] rest hfront
  · rw [if_neg hreturn]
    exact lines_append_newline rest hfeed hreturn

theorem lines_flatMap {β : Type} {f : β → List Char} {l : List β} (hfeed : ∀ b ∈ l, '\n' ∉ f b) :
    lines (l.flatMap fun b => f b ++ ['\n']) = l.map fun b => dropReturn (f b) := by
  induction l with
  | nil => rfl
  | cons b l ih =>
    rw [List.flatMap_cons, List.append_assoc, List.singleton_append,
      lines_append_newline_eq _ (hfeed b (List.mem_cons_self ..)),
      ih fun c hc => hfeed c (List.mem_cons_of_mem _ hc), List.map_cons]

/-- No line holds a line feed. -/
theorem newline_not_mem_of_mem_linesFrom {begun text : List Char} (hbegun : '\n' ∉ begun) :
    ∀ line ∈ linesFrom begun text, '\n' ∉ line := by
  fun_induction linesFrom begun text with
  | case1 begun hempty => simp
  | case2 begun hempty => simpa using hbegun
  | case3 begun rest ih =>
    intro line hline
    rcases List.mem_cons.1 hline with rfl | hline
    · rwa [List.mem_reverse]
    · exact ih List.not_mem_nil line hline
  | case4 begun rest ih =>
    intro line hline
    rcases List.mem_cons.1 hline with rfl | hline
    · rwa [List.mem_reverse]
    · exact ih List.not_mem_nil line hline
  | case5 begun c rest hc _ ih =>
    apply ih
    intro hmem
    rcases List.mem_cons.1 hmem with heq | hmem
    · exact hc heq.symm
    · exact hbegun hmem

theorem newline_not_mem_of_mem_lines {text line : List Char} (h : line ∈ lines text) : '\n' ∉ line :=
  newline_not_mem_of_mem_linesFrom List.not_mem_nil line h

theorem dropReturn_append (front : List Char) {l : List Char} (hl : l ≠ []) :
    dropReturn (front ++ l) = front ++ dropReturn l := by
  unfold dropReturn
  rw [List.getLast?_append_of_ne_nil front hl]
  split
  · rw [List.dropLast_append_of_ne_nil hl]
  · rfl

theorem dropReturn_sublist (l : List Char) : (dropReturn l).Sublist l := by
  unfold dropReturn
  split
  · exact l.dropLast_sublist
  · exact List.Sublist.refl l

end Text

/-! ## Rows -/

namespace Line

theorem isBlank_space : isBlank ' ' = true :=
  isBlank_of_isWhitespace rfl

theorem all_isBlank_spaces (k : Nat) : (List.replicate k ' ').all isBlank = true := by
  rw [List.all_replicate]
  simp [isBlank_space]

/-- Spaces in front of something that begins with another character are its width. -/
theorem width_spaces {l : List Char} (k : Nat) (hl : l.head? ≠ some ' ') :
    width (List.replicate k ' ' ++ l) = k := by
  have hnone : l.takeWhile (· == ' ') = [] := by
    cases l with
    | nil => rfl
    | cons c l =>
      have hc : c ≠ ' ' := fun heq => hl (by rw [heq]; rfl)
      simp [hc]
  rw [width, List.takeWhile_append_of_pos (by simp), hnone, List.append_nil, List.length_replicate]

/-- The body follows the width. -/
theorem body_eq_drop (line : List Char) : body line = line.drop (width line) := by
  have hsplit : line.takeWhile (· == ' ') ++ body line = line := List.takeWhile_append_dropWhile
  have hdrop : (line.takeWhile (· == ' ') ++ body line).drop (width line) = body line := List.drop_left
  rw [hsplit] at hdrop
  exact hdrop.symm

theorem stripLead_append (lead text : List Char) : stripLead lead (lead ++ text) = text := by
  rw [stripLead, if_pos (by simp), List.drop_left]

theorem stripLead_sublist (lead text : List Char) : (stripLead lead text).Sublist text := by
  unfold stripLead
  split
  · exact List.drop_sublist ..
  · exact List.Sublist.refl text

/-- The width is a multiple of the indentation, so that dividing loses nothing of it. -/
theorem Means.level_mul_indent {style : OutlineStyle} {line : List Char} {x : Nat × String}
    (h : Means style line x) : x.1 * style.indent = width line := by
  obtain ⟨-, hwidth, rfl⟩ := h
  exact Nat.div_mul_cancel (Nat.dvd_of_mod_eq_zero hwidth)

theorem newline_not_mem_body {line : List Char} (hline : '\n' ∉ line) : '\n' ∉ body line :=
  fun hmem => hline ((List.dropWhile_sublist _).subset hmem)

/-- A value that is read holds no line feed. -/
theorem Means.newline_not_mem {style : OutlineStyle} {line : List Char} {x : Nat × String}
    (h : Means style line x) (hline : '\n' ∉ line) : '\n' ∉ x.2.toList := by
  obtain ⟨-, -, rfl⟩ := h
  rw [String.toList_ofList]
  intro hmem
  exact newline_not_mem_body hline ((stripLead_sublist _ _).subset hmem)

end Line

namespace OutlineStyle

open Line

variable {style : OutlineStyle} {x : Nat × String}

/-- The text that stands after the spaces. -/
def text (style : OutlineStyle) (value : String) : List Char :=
  style.lead.toList ++ value.toList

/-- How a row is written. -/
def written (style : OutlineStyle) (x : Nat × String) : List Char :=
  List.replicate (x.1 * style.indent) ' ' ++ style.text x.2

/-- The value can be told from its line: with the lead before it, it is not empty, stands on one line, does not
    end in a carriage return and does not begin with white space. -/
def Keeps (style : OutlineStyle) (value : String) : Prop :=
  style.text value ≠ [] ∧ '\n' ∉ style.text value ∧ (style.text value).getLast? ≠ some '\r' ∧
    (style.text value).head?.any isBlank = false

instance (style : OutlineStyle) (value : String) : Decidable (style.Keeps value) :=
  inferInstanceAs (Decidable (_ ∧ _ ∧ _ ∧ _))

theorem newline_not_mem_written (hlead : '\n' ∉ style.lead.toList) (hvalue : '\n' ∉ x.2.toList) :
    '\n' ∉ style.written x := by
  rw [written, text]
  simp [hlead, hvalue]

/-- A row that can be told from its line is. -/
theorem Keeps.means (h : style.Keeps x.2) (hindent : 1 ≤ style.indent) :
    (dropReturn (style.written x)).all isBlank = false ∧ Means style (dropReturn (style.written x)) x := by
  obtain ⟨hempty, -, hreturn, hblank⟩ := h
  have hdrop : dropReturn (style.written x) = style.written x := by
    rw [written, dropReturn_append _ hempty, dropReturn, if_neg hreturn]
  -- a space at the beginning of the text would be white space there
  have hspace : (style.text x.2).head? ≠ some ' ' := by
    intro heq
    rw [heq] at hblank
    simp [isBlank_space] at hblank
  have hwidth : width (style.written x) = x.1 * style.indent := width_spaces _ hspace
  have hbody : body (style.written x) = style.text x.2 := by
    rw [body_eq_drop, hwidth, written, List.drop_left' List.length_replicate]
  rw [hdrop]
  refine ⟨?_, ?_, ?_, ?_⟩
  · -- the first character after the spaces is not blank
    obtain ⟨c, rest, htext⟩ := List.exists_cons_of_ne_nil hempty
    rw [htext] at hblank
    have hc : isBlank c = false := by simpa using hblank
    rw [List.all_eq_false]
    exact ⟨c, by rw [written, htext]; simp, by simp [hc]⟩
  · rw [hbody]
    exact hblank
  · rw [hwidth, Nat.mul_mod_left]
  · rw [hwidth, hbody, Nat.mul_div_cancel _ hindent, text, stripLead_append, String.ofList_toList]

/-- A lost carriage return is not made up for. -/
theorem getLast?_ne_return_of_stripLead {lead value : List Char} (hempty : dropReturn (lead ++ value) ≠ [])
    (h : value = stripLead lead (dropReturn (lead ++ value))) : (lead ++ value).getLast? ≠ some '\r' := by
  intro hreturn
  have hlength : (dropReturn (lead ++ value)).length + 1 = lead.length + value.length := by
    have hpos : 0 < (lead ++ value).length := by
      rw [List.length_pos_iff]
      rintro hnil
      rw [hnil] at hreturn
      cases hreturn
    rw [dropReturn, if_pos hreturn, List.length_dropLast, ← List.length_append]
    omega
  unfold stripLead at h
  split at h
  · -- with the lead taken off, the value would be one character longer than itself
    rename_i hprefix
    have hle := (List.isPrefixOf_iff_prefix.1 hprefix).length_le
    have hvalue := congrArg List.length h
    rw [List.length_drop] at hvalue
    omega
  · -- the lead is a single character, which then is still there
    rename_i hprefix
    have hvalue := congrArg List.length h
    obtain ⟨a, rfl⟩ : ∃ a, lead = [a] := List.length_eq_one_iff.1 (by omega)
    rw [dropReturn, if_pos hreturn] at hempty hprefix
    cases value with
    | nil => exact hempty rfl
    | cons b value => simp at hprefix

/-- A line that is not blank has more on it than the spaces. -/
theorem dropReturn_written (hblank : (dropReturn (style.written x)).all isBlank = false) :
    dropReturn (style.written x) = List.replicate (x.1 * style.indent) ' ' ++ dropReturn (style.text x.2)
      ∧ dropReturn (style.text x.2) ≠ [] := by
  have htext : style.text x.2 ≠ [] := by
    intro hnil
    have hall := all_isBlank_spaces (x.1 * style.indent)
    rw [List.all_eq_true] at hall
    rw [List.all_eq_false] at hblank
    obtain ⟨c, hc, hcblank⟩ := hblank
    have hc' := (dropReturn_sublist _).subset hc
    rw [written, hnil, List.append_nil] at hc'
    exact hcblank (hall c hc')
  have hdrop := dropReturn_append (List.replicate (x.1 * style.indent) ' ') htext
  refine ⟨hdrop, ?_⟩
  intro hnil
  rw [hnil, List.append_nil] at hdrop
  rw [written, hdrop, all_isBlank_spaces] at hblank
  cases hblank

/-- The level read is the level written, so that the width is that of the spaces and the text is the body. -/
theorem body_of_means (hblank : (dropReturn (style.written x)).all isBlank = false)
    (h : Means style (dropReturn (style.written x)) x) :
    body (dropReturn (style.written x)) = dropReturn (style.text x.2) := by
  rw [body_eq_drop, ← h.level_mul_indent, (dropReturn_written hblank).1, List.drop_left' List.length_replicate]

/-- **A row that is read back from its line can be told from it.** -/
theorem keeps_of_means (hlead : '\n' ∉ style.lead.toList) (hvalue : '\n' ∉ x.2.toList)
    (hblank : (dropReturn (style.written x)).all isBlank = false)
    (h : Means style (dropReturn (style.written x)) x) : style.Keeps x.2 := by
  have hrest := (dropReturn_written hblank).2
  have hbody := body_of_means hblank h
  obtain ⟨hhead, -, hx⟩ := h
  rw [hbody] at hhead hx
  have hread : x.2.toList = stripLead style.lead.toList (dropReturn (style.text x.2)) := by
    have hvalue := congrArg (fun y => y.2.toList) hx
    rwa [String.toList_ofList] at hvalue
  have hreturn := getLast?_ne_return_of_stripLead hrest hread
  have hdrop : dropReturn (style.text x.2) = style.text x.2 := if_neg hreturn
  rw [hdrop] at hhead hrest
  refine ⟨hrest, ?_, hreturn, hhead⟩
  rw [text]
  simp [hlead, hvalue]

end OutlineStyle

end Grove
