import Grove.Proofs.Outline.RoundTrip
import Mathlib.Algebra.BigOperators.Group.List.Basic
import Mathlib.Data.List.TakeWhile

/-!
# `Proofs.Outline.Reread` — outlines that are written again

A text that is read may look different from what is written for it: leads may be missing, lines may end with
carriage returns, and there may be blank lines. What is written for it is read as the same trees exactly if every
line of it survives (`Line.Survives`): no carriage return is left at its end, and the lead fits.

The text written is taken apart at its rows, since what is read of a row does not depend on the others
(`content_flatMap`). Every row leaves at least one line, and a text that is read as the same rows has one line for
each, so it is exactly one (`forall₂_flatMap_iff`). What remains is a single row, and whether it is read back from
what is written for it (`Line.Means.returns_iff`). If the lead is on one line, that is what `OutlineStyle.Keeps`
says of the value. Otherwise nothing may be read of the lead before its last line feed, and what stands after that
has to be the spaces of the line.
-/

namespace Grove

open Forest Text

/-! ## Lists -/

/-- An element of a list stands in it for a last time. -/
theorem exists_last_split {α : Type} {a : α} {l : List α} (h : a ∈ l) : ∃ s t, l = s ++ a :: t ∧ a ∉ t := by
  obtain ⟨s, t, hsplit, hs⟩ := List.eq_append_cons_of_mem (List.mem_reverse.2 h)
  refine ⟨t.reverse, s.reverse, ?_, by simpa using hs⟩
  rw [← List.reverse_reverse l, hsplit]
  simp

/-- Where every element has a list of its own that is not empty, these lists in a row are related to the elements
    only if each of them is a single item. -/
theorem forall₂_flatMap_iff {α β : Type} {R : α → β → Prop} {f : β → List α} {l : List β}
    (hf : ∀ b ∈ l, f b ≠ []) : List.Forall₂ R (l.flatMap f) l ↔ ∀ b ∈ l, ∃ a, f b = [a] ∧ R a b := by
  induction l with
  | nil => simp
  | cons b l ih =>
    have ih := ih fun c hc => hf c (List.mem_cons_of_mem b hc)
    rw [List.flatMap_cons, List.forall_mem_cons, ← ih]
    constructor
    · intro h
      have hrest : l.length ≤ (l.flatMap f).length := by
        rw [List.length_flatMap, ← List.length_map (f := fun c => (f c).length)]
        apply List.length_le_sum_of_one_le
        rw [List.forall_mem_map]
        exact fun c hc => List.length_pos_iff.2 (hf c (List.mem_cons_of_mem b hc))
      have hfirst := List.length_pos_iff.2 (hf b (List.mem_cons_self ..))
      have hlength := h.length_eq
      rw [List.length_append, List.length_cons] at hlength
      obtain ⟨a, ha⟩ := List.length_eq_one_iff.1 (by omega : (f b).length = 1)
      rw [ha, List.singleton_append, List.forall₂_cons] at h
      exact ⟨⟨a, ha, h.1⟩, h.2⟩
    · rintro ⟨⟨a, ha, hab⟩, h⟩
      rw [ha, List.singleton_append]
      exact .cons hab h

/-! ## Lines of a text -/

namespace Text

/-- A character that does not end the line is part of it. -/
theorem linesFrom_cons {c : Char} {rest : List Char} (begun : List Char) (hfeed : c ≠ '\n')
    (hreturn : c = '\r' → rest.head? ≠ some '\n') : linesFrom begun (c :: rest) = linesFrom (c :: begun) rest := by
  rw [linesFrom]
  · exact hfeed
  · rintro tail rfl rfl
    exact hreturn rfl rfl

/-- A text is cut into lines at its line feeds. -/
theorem linesFrom_append_newline_eq (begun front rest : List Char) :
    linesFrom begun (front ++ '\n' :: rest) = linesFrom begun (front ++ ['\n']) ++ lines rest := by
  fun_induction linesFrom begun front with
  | case1 begun hempty => simp [linesFrom, lines]
  | case2 begun hempty => simp [linesFrom, lines]
  | case3 begun front ih => simp [linesFrom, ih]
  | case4 begun front ih => simp [linesFrom, ih]
  | case5 begun c front hfeed hreturn ih =>
    by_cases hend : c = '\r' ∧ front = []
    · -- a carriage return that was last now stands before a line feed
      obtain ⟨rfl, rfl⟩ := hend
      simp [linesFrom, lines]
    · have hrest : ∀ l, c = '\r' → (front ++ '\n' :: l).head? ≠ some '\n' := by
        rintro l rfl hhead
        cases front with
        | nil => exact hend ⟨rfl, rfl⟩
        | cons d front =>
          rw [List.cons_append, List.head?_cons] at hhead
          exact hreturn front rfl (by rw [Option.some.inj hhead])
      rw [List.cons_append, List.cons_append, linesFrom_cons begun hfeed (hrest rest),
        linesFrom_cons begun hfeed (hrest []), ih]

theorem lines_append_newline_append (front rest : List Char) :
    lines (front ++ '\n' :: rest) = lines (front ++ ['\n']) ++ lines rest :=
  linesFrom_append_newline_eq [] front rest

theorem lines_flatMap_eq {β : Type} (f : β → List Char) (l : List β) :
    lines (l.flatMap fun b => f b ++ ['\n']) = l.flatMap fun b => lines (f b ++ ['\n']) := by
  induction l with
  | nil => rfl
  | cons b l ih =>
    rw [List.flatMap_cons, List.append_assoc, List.singleton_append, lines_append_newline_append, ih,
      List.flatMap_cons]

/-- Lines are blank where the text is: what ends a line is white space as well. -/
theorem all_isBlank_linesFrom (begun text : List Char) :
    ((linesFrom begun text).all fun line => line.all isBlank) = (begun.all isBlank && text.all isBlank) := by
  have hfeed : isBlank '\n' = true := rfl
  have hreturn : isBlank '\r' = true := rfl
  fun_induction linesFrom begun text with
  | case1 begun hempty => simp_all
  | case2 begun hempty => simp
  | case3 begun rest ih => simp [ih, hfeed]
  | case4 begun rest ih => simp [ih, hfeed, hreturn]
  | case5 begun c rest _ _ ih => rw [ih, List.all_cons, List.all_cons, Bool.and_left_comm, Bool.and_assoc]

theorem content_eq_nil_iff (text : List Char) : content text = [] ↔ text.all isBlank = true := by
  have hlines := all_isBlank_linesFrom [] text
  rw [List.all_nil, Bool.true_and] at hlines
  rw [content, List.filter_eq_nil_iff, ← hlines, List.all_eq_true]
  simp [lines]

theorem content_append_newline_append (front rest : List Char) :
    content (front ++ '\n' :: rest) = content (front ++ ['\n']) ++ content rest := by
  rw [content, lines_append_newline_append, List.filter_append]
  rfl

theorem content_flatMap {β : Type} (f : β → List Char) (l : List β) :
    content (l.flatMap fun b => f b ++ ['\n']) = l.flatMap fun b => content (f b ++ ['\n']) := by
  rw [content, lines_flatMap_eq, List.filter_flatMap]
  rfl

/-- A single line that is written, if it is not blank. -/
theorem content_line {line : List Char} (hfeed : '\n' ∉ line) :
    content (line ++ ['\n']) = if (dropReturn line).all isBlank then [] else [dropReturn line] := by
  rw [content, lines_append_newline_eq [] hfeed]
  cases hblank : (dropReturn line).all isBlank <;> simp [hblank, lines, linesFrom]

/-- No other character is lost. -/
theorem mem_dropReturn {line : List Char} {c : Char} (hc : c ≠ '\r') (hmem : c ∈ line) : c ∈ dropReturn line := by
  by_cases hreturn : line.getLast? = some '\r'
  · obtain ⟨front, rfl⟩ := List.getLast?_eq_some_iff.1 hreturn
    rw [dropReturn, if_pos hreturn, List.dropLast_concat]
    rcases List.mem_append.1 hmem with hfront | hlast
    · exact hfront
    · exact absurd (List.mem_singleton.1 hlast) hc
  · rwa [dropReturn, if_neg hreturn]

theorem ne_return_of_isBlank {c : Char} (hc : isBlank c = false) : c ≠ '\r' := by
  rintro rfl
  cases hc

end Text

/-! ## Lines -/

namespace Line

/-- A line is its spaces and its body. -/
theorem spaces_append_body (line : List Char) : List.replicate (width line) ' ' ++ body line = line := by
  have hspaces : line.takeWhile (· == ' ') = List.replicate (width line) ' ' := by
    rw [List.eq_replicate_iff]
    refine ⟨rfl, fun c hc => ?_⟩
    simpa using List.mem_takeWhile_imp hc
  rw [← hspaces]
  exact List.takeWhile_append_dropWhile

theorem body_ne_nil {line : List Char} (hblank : line.all isBlank = false) : body line ≠ [] := by
  intro hnil
  have hspaces := spaces_append_body line
  rw [hnil, List.append_nil] at hspaces
  rw [← hspaces, all_isBlank_spaces] at hblank
  cases hblank

/-- The body of a line that means something begins with something other than white space. -/
theorem Means.exists_body {style : OutlineStyle} {line : List Char} {x : Nat × String} (h : Means style line x)
    (hblank : line.all isBlank = false) : ∃ c rest, body line = c :: rest ∧ isBlank c = false := by
  obtain ⟨c, rest, hbody⟩ := List.exists_cons_of_ne_nil (body_ne_nil hblank)
  exact ⟨c, rest, hbody, by simpa [hbody] using h.1⟩

theorem getLast?_body {line : List Char} (hblank : line.all isBlank = false) :
    line.getLast? = (body line).getLast? := by
  have hlast := List.getLast?_append_of_ne_nil (List.replicate (width line) ' ') (body_ne_nil hblank)
  rwa [spaces_append_body] at hlast

/-- The lead is in front of the text afterwards, whether it was there or not. -/
theorem append_stripLead (lead text : List Char) :
    lead ++ stripLead lead text = if lead <+: text then text else lead ++ text := by
  unfold stripLead
  by_cases hlead : lead <+: text
  · obtain ⟨rest, rfl⟩ := hlead
    rw [if_pos (by simp), if_pos (by simp), List.drop_left]
  · rw [if_neg (by simpa using hlead), if_neg hlead]

/-- A lead that takes more than one line is in front of no line. -/
theorem stripLead_of_newline {lead text : List Char} (hlead : '\n' ∈ lead) (htext : '\n' ∉ text) :
    stripLead lead text = text := by
  refine if_neg fun hprefix => htext ?_
  exact (List.isPrefixOf_iff_prefix.1 hprefix).subset hlead

/-- A lead that takes more than one line is on no line, so that different lines mean different rows. -/
theorem Means.eq_of_newline {style : OutlineStyle} {l m : List Char} {x : Nat × String}
    (hlead : '\n' ∈ style.lead.toList) (hl : Means style l x) (hm : Means style m x) (hlfeed : '\n' ∉ l)
    (hmfeed : '\n' ∉ m) : l = m := by
  have hwidth : width l = width m := hl.level_mul_indent.symm.trans hm.level_mul_indent
  obtain ⟨-, -, rfl⟩ := hl
  obtain ⟨-, -, hx⟩ := hm
  have hvalue := congrArg Prod.snd hx
  have hbody : body l = body m := by
    rw [stripLead_of_newline hlead (newline_not_mem_body hlfeed),
      stripLead_of_newline hlead (newline_not_mem_body hmfeed)] at hvalue
    exact String.ofList_injective hvalue
  rw [← spaces_append_body l, hwidth, hbody, spaces_append_body]

end Line

/-! ## Rows -/

namespace OutlineStyle

open Line

variable {style : OutlineStyle} {line : List Char} {x : Nat × String}

/-- The lines on which a row is written, without those that are blank. -/
def linesOf (style : OutlineStyle) (x : Nat × String) : List (List Char) :=
  content (style.written x ++ ['\n'])

/-- The row is read back from what is written for it. -/
def Returns (style : OutlineStyle) (x : Nat × String) : Prop :=
  ∃ line, style.linesOf x = [line] ∧ Means style line x

/-- A row that was read is not blank when it is written. -/
theorem linesOf_ne_nil (h : Means style line x) (hblank : line.all isBlank = false) : style.linesOf x ≠ [] := by
  obtain ⟨c, rest, hbody, hc⟩ := h.exists_body hblank
  -- the first character of the body is still there, in the lead or in the value
  have hmem : c ∈ style.text x.2 := by
    rw [text, h.2.2, String.toList_ofList, append_stripLead, hbody]
    split <;> simp
  intro hnil
  rw [linesOf, content_eq_nil_iff, written, List.all_append, List.all_append, Bool.and_eq_true,
    Bool.and_eq_true] at hnil
  rw [List.all_eq_true.1 hnil.1.2 c hmem] at hc
  cases hc

/-- If the lead is on one line, a row is read back exactly if its value can be told from its line. -/
theorem returns_iff_keeps (hindent : 1 ≤ style.indent) (hlead : '\n' ∉ style.lead.toList)
    (hvalue : '\n' ∉ x.2.toList) : style.Returns x ↔ style.Keeps x.2 := by
  show (∃ line, content (style.written x ++ ['\n']) = [line] ∧ Means style line x) ↔ _
  rw [content_line (newline_not_mem_written hlead hvalue)]
  constructor
  · rintro ⟨line, hline, hmeans⟩
    split at hline
    · cases hline
    · rename_i hblank
      obtain rfl := List.singleton_inj.1 hline
      exact keeps_of_means hlead hvalue (by simpa using hblank) hmeans
  · intro hkeeps
    obtain ⟨hblank, hmeans⟩ := hkeeps.means hindent
    exact ⟨_, if_neg (by simp [hblank]), hmeans⟩

/-- A value that was read can be told from its line if the line does not end in a carriage return and the lead
    does not begin with white space. -/
theorem keeps_iff_of_means (h : Means style line x) (hlead : '\n' ∉ style.lead.toList) (hline : '\n' ∉ line)
    (hblank : line.all isBlank = false) :
    style.Keeps x.2 ↔ line.getLast? ≠ some '\r' ∧ style.lead.toList.head?.any isBlank = false := by
  obtain ⟨hhead, -, rfl⟩ := h
  have hbody := body_ne_nil hblank
  have hfeed := newline_not_mem_body hline
  rw [Keeps, text, String.toList_ofList, append_stripLead, getLast?_body hblank]
  split
  · -- the lead is the beginning of the body, which does not begin with white space
    rename_i hprefix
    have hleadhead : style.lead.toList.head?.any isBlank = false := by
      obtain ⟨rest, hrest⟩ := hprefix
      rw [← hrest, List.head?_append] at hhead
      cases hfirst : style.lead.toList.head? with
      | none => rfl
      | some c => rwa [hfirst] at hhead
    simp [hbody, hfeed, hhead, hleadhead]
  · rename_i hprefix
    have hne : style.lead.toList ≠ [] := by
      intro hnil
      rw [hnil] at hprefix
      exact hprefix List.nil_prefix
    obtain ⟨c, rest, hcons⟩ := List.exists_cons_of_ne_nil hne
    rw [List.getLast?_append_of_ne_nil _ hbody, List.mem_append, not_or, List.head?_append]
    rw [hcons] at hlead ⊢
    simp_all

/-- If the lead has a last line feed in it, the last line of a row is the rest of the lead and the value. -/
theorem linesOf_of_newline {front back rest : List Char} {c : Char}
    (hsplit : style.lead.toList = front ++ '\n' :: back) (hvalue : x.2.toList = c :: rest) (hback : '\n' ∉ back)
    (hfeed : '\n' ∉ c :: rest) (hc : isBlank c = false) :
    style.linesOf x = content (List.replicate (x.1 * style.indent) ' ' ++ front ++ ['\n'])
      ++ [back ++ dropReturn (c :: rest)] := by
  have hwritten : style.written x ++ ['\n'] = List.replicate (x.1 * style.indent) ' ' ++ front
      ++ '\n' :: (back ++ c :: rest ++ ['\n']) := by
    simp [written, text, hsplit, hvalue]
  have hmem : c ∈ dropReturn (c :: rest) := mem_dropReturn (ne_return_of_isBlank hc) (List.mem_cons_self ..)
  have hblank : (back ++ dropReturn (c :: rest)).all isBlank = false := by
    rw [List.all_eq_false]
    exact ⟨c, List.mem_append_right _ hmem, by simp [hc]⟩
  have hline : '\n' ∉ back ++ c :: rest := by
    rw [List.mem_append, not_or]
    exact ⟨hback, hfeed⟩
  rw [linesOf, hwritten, content_append_newline_append, content_line hline,
    dropReturn_append _ (List.cons_ne_nil c rest), hblank]
  rfl

/-- Only the spaces of a line can be in front of a body, and only of one that has lost nothing. -/
theorem append_dropReturn_eq_iff {back rest : List Char} {k : Nat} {c : Char} (hc : c ≠ '\r') :
    back ++ dropReturn (c :: rest) = List.replicate k ' ' ++ c :: rest
      ↔ back = List.replicate k ' ' ∧ (c :: rest).getLast? ≠ some '\r' := by
  by_cases hreturn : (c :: rest).getLast? = some '\r'
  · refine ⟨fun h => ?_, fun h => absurd hreturn h.2⟩
    obtain ⟨front, hfront⟩ := List.getLast?_eq_some_iff.1 hreturn
    -- without its last character the body would be the body without its first, which is no carriage return
    rw [dropReturn, if_pos hreturn, hfront, List.dropLast_concat, ← hfront, List.append_cons] at h
    have hlength := congrArg List.length hfront
    rw [List.length_cons, List.length_append, List.length_singleton] at hlength
    obtain ⟨-, rfl⟩ := List.append_inj' h (by omega)
    have hcount := congrArg (List.count '\r') hfront
    rw [List.count_cons_of_ne hc, List.count_append, List.count_singleton_self] at hcount
    omega
  · rw [dropReturn, if_neg hreturn, List.append_cancel_right_eq]
    simp [hreturn]

/-- Such a row is read back exactly if nothing but white space is before the line feed, and what stands after it is
    the line that was read. -/
theorem returns_iff_of_newline {front back : List Char} (hsplit : style.lead.toList = front ++ '\n' :: back)
    (hback : '\n' ∉ back) (h : Means style line x) (hline : '\n' ∉ line) (hblank : line.all isBlank = false) :
    style.Returns x ↔ front.all isBlank = true ∧ back = List.replicate (width line) ' ' ∧
      line.getLast? ≠ some '\r' := by
  obtain ⟨c, rest, hbody, hc⟩ := h.exists_body hblank
  have hlead : '\n' ∈ style.lead.toList := by simp [hsplit]
  have hfeed : '\n' ∉ c :: rest := hbody ▸ newline_not_mem_body hline
  have hvalue : x.2.toList = c :: rest := by
    rw [h.2.2, String.toList_ofList, hbody, stripLead_of_newline hlead hfeed]
  have hlast : '\n' ∉ back ++ dropReturn (c :: rest) := by
    rw [List.mem_append, not_or]
    exact ⟨hback, fun hmem => hfeed ((dropReturn_sublist _).subset hmem)⟩
  have hfront : content (List.replicate (x.1 * style.indent) ' ' ++ front ++ ['\n']) = []
      ↔ front.all isBlank = true := by
    rw [content_eq_nil_iff, List.all_append, List.all_append, all_isBlank_spaces]
    simp [show isBlank '\n' = true from rfl]
  have hsame : back ++ dropReturn (c :: rest) = line
      ↔ back = List.replicate (width line) ' ' ∧ line.getLast? ≠ some '\r' := by
    rw [getLast?_body hblank, hbody, ← append_dropReturn_eq_iff (ne_return_of_isBlank hc), ← hbody,
      spaces_append_body]
  rw [Returns, linesOf_of_newline hsplit hvalue hback hfeed hc, ← hfront, ← hsame]
  constructor
  · rintro ⟨m, heq, hm⟩
    obtain ⟨hnil, hlastline⟩ := List.append_inj' (heq.trans (List.nil_append [m]).symm) rfl
    obtain rfl := List.singleton_inj.1 hlastline
    exact ⟨hnil, hm.eq_of_newline hlead h hlast hline⟩
  · rintro ⟨hnil, heq⟩
    exact ⟨line, by rw [hnil, heq]; rfl, h⟩

/-! ## Lines that survive -/

/-- The lead can stand before every value: it is on one line and does not begin with white space. -/
def Plain (style : OutlineStyle) : Prop :=
  '\n' ∉ style.lead.toList ∧ style.lead.toList.head?.any isBlank = false

/-- The lead is read as blank lines and `k` spaces. -/
def Breaks (style : OutlineStyle) (k : Nat) : Prop :=
  ∃ front, front.all isBlank = true ∧ style.lead.toList = front ++ '\n' :: List.replicate k ' '

end OutlineStyle

/-- The line is the same row when what it means is written and read again: it does not end in a carriage return, and
    the lead either is plain or is no more than the spaces of the line, after blank lines. -/
def Line.Survives (style : OutlineStyle) (line : List Char) : Prop :=
  line.getLast? ≠ some '\r' ∧ (style.Plain ∨ style.Breaks (width line))

/-- **A row that was read is read back exactly if its line survives.** -/
theorem Line.Means.returns_iff {style : OutlineStyle} {line : List Char} {x : Nat × String}
    (h : Means style line x) (hindent : 1 ≤ style.indent) (hline : '\n' ∉ line) (hblank : line.all isBlank = false) :
    style.Returns x ↔ Survives style line := by
  by_cases hlead : '\n' ∈ style.lead.toList
  · constructor
    · intro hreturns
      obtain ⟨front, back, hsplit, hback⟩ := exists_last_split hlead
      obtain ⟨hfront, rfl, hreturn⟩ :=
        (OutlineStyle.returns_iff_of_newline hsplit hback h hline hblank).1 hreturns
      exact ⟨hreturn, Or.inr ⟨front, hfront, hsplit⟩⟩
    · rintro ⟨hreturn, hplain | ⟨front, hfront, hsplit⟩⟩
      · exact absurd hlead hplain.1
      · exact (OutlineStyle.returns_iff_of_newline hsplit (by simp) h hline hblank).2 ⟨hfront, rfl, hreturn⟩
  · have hbreaks : ¬ style.Breaks (width line) := by
      rintro ⟨front, -, hsplit⟩
      exact hlead (by simp [hsplit])
    rw [OutlineStyle.returns_iff_keeps hindent hlead (h.newline_not_mem hline),
      OutlineStyle.keeps_iff_of_means h hlead hline hblank, Survives, OutlineStyle.Plain]
    simp [hlead, hbreaks]

/-! ## Texts -/

/-- The rows of a text, written one after the other, are read again as these rows exactly if every line of the text
    survives. -/
theorem forall₂_linesOf_iff {style : OutlineStyle} {text : List Char} {L : List (Nat × String)}
    (hindent : 1 ≤ style.indent) (hmeans : List.Forall₂ (Line.Means style) (content text) L) :
    List.Forall₂ (Line.Means style) (L.flatMap style.linesOf) L
      ↔ ∀ line ∈ content text, Line.Survives style line := by
  have hlines : ∀ x ∈ L, style.linesOf x ≠ [] := by
    intro x hx
    obtain ⟨line, hline, h⟩ := exists_left_of_forall₂ hmeans x hx
    exact OutlineStyle.linesOf_ne_nil h (mem_content_iff.1 hline).2
  have hsame : ∀ line ∈ content text, ∀ x, Line.Means style line x →
      (style.Returns x ↔ Line.Survives style line) := by
    intro line hline x h
    rw [mem_content_iff] at hline
    exact h.returns_iff hindent (newline_not_mem_of_mem_lines hline.1) hline.2
  rw [forall₂_flatMap_iff hlines]
  constructor
  · intro hreturns line hline
    obtain ⟨x, hx, h⟩ := exists_left_of_forall₂ hmeans.flip line hline
    exact (hsame line hline x h).1 (hreturns x hx)
  · intro hsurvives x hx
    obtain ⟨line, hline, h⟩ := exists_left_of_forall₂ hmeans x hx
    exact (hsame line hline x h).2 (hsurvives line hline)

namespace OutlineForest

variable {style : OutlineStyle} {text : String} {O O' : OutlineForest} {ts : List (Tree String)}

theorem wellFormed_of_parse (h : parse style text = .ok O) : O.forest.WellFormed := by
  obtain ⟨s, hread, rfl⟩ := exists_readLines_of_parse h
  obtain ⟨M, hM, -⟩ := Progress.good_start.rows_of_readLines hread
  exact hM.wellFormed

/-- A text that is read is read as trees. -/
theorem exists_trees_of_parse (h : parse style text = .ok O) : ∃ ts, O.entries.mapM O.forest.subtree = .ok ts := by
  obtain ⟨s, hread, rfl⟩ := exists_readLines_of_parse h
  obtain ⟨M, hM, -⟩ := Progress.good_start.rows_of_readLines hread
  obtain ⟨ts, hts, -⟩ := hM.trees
  exact ⟨ts, hts⟩

/-- What is written depends on the trees only. -/
theorem outline_of_trees (hF : O.forest.WellFormed) (htrees : O.entries.mapM O.forest.subtree = .ok ts)
    (hpadding : ∀ x ∈ ts.flatMap (Tree.levelled 0), x.1 * style.indent ≤ OutlineStyle.maxPadding) :
    O.outline style = .ok (String.ofList
      ((ts.flatMap (Tree.levelled 0)).flatMap fun x => style.written x ++ ['\n'])) := by
  have hlive : ∀ n ∈ O.entries, O.forest.contains n = true := fun n hn => (List.mem_filter.1 hn).2
  obtain rfl : O.entries.map O.forest.treeOf = ts := Except.ok.inj ((hF.mapM_subtree_eq hlive).symm.trans htrees)
  obtain ⟨text, houtline, htext⟩ := outline_eq hF fun t ht x hx => hpadding x (List.mem_flatMap.2 ⟨t, ht, hx⟩)
  rw [houtline, ← htext, String.ofList_toList]

/-- **Reading again what is written for a text that was read** gives the same trees exactly if every line of the
    text survives, and then the same is written for them. -/
theorem reread_iff (style : OutlineStyle) (text : String) (O : OutlineForest) (hparse : parse style text = .ok O)
    (hpadding : ∀ line ∈ content text.toList, Line.width line ≤ 65535) :
    ∃ ts text', O.entries.mapM O.forest.subtree = .ok ts ∧ O.outline style = .ok text' ∧
      ((∃ O', parse style text' = .ok O' ∧ O'.entries.mapM O'.forest.subtree = .ok ts) ↔
        ∀ line ∈ content text.toList, Line.Survives style line) ∧
      ∀ O', parse style text' = .ok O' → O'.entries.mapM O'.forest.subtree = .ok ts →
        O'.outline style = .ok text' := by
  have hindent := one_le_of_parse hparse
  obtain ⟨ts, htrees⟩ := exists_trees_of_parse hparse
  have hmeans := (parse_eq_iff hindent).1 ⟨O, hparse, htrees⟩
  have hrows : ∀ x ∈ ts.flatMap (Tree.levelled 0), x.1 * style.indent ≤ OutlineStyle.maxPadding := by
    intro x hx
    obtain ⟨line, hline, h⟩ := exists_left_of_forall₂ hmeans x hx
    rw [h.level_mul_indent]
    exact hpadding line hline
  refine ⟨ts, _, htrees, outline_of_trees (wellFormed_of_parse hparse) htrees hrows, ?_, ?_⟩
  · rw [parse_eq_iff hindent, String.toList_ofList, content_flatMap]
    exact forall₂_linesOf_iff hindent hmeans
  · intro O' hparse' htrees'
    exact outline_of_trees (wellFormed_of_parse hparse') htrees' hrows

/-- A carriage return that ends the line, a blank line, a missing lead and spaces at the end of a value. -/
theorem reread_iff_of_lenient :
    let text := "+- a\r\n\n  b \n"
    ∃ O, parse .standard text = .ok O ∧ (∀ line ∈ content text.toList, Line.width line ≤ 65535) ∧
      ∃ text' O', O.outline .standard = .ok text' ∧ parse .standard text' = .ok O' ∧
        O'.entries.mapM O'.forest.subtree = .ok [.node "a" [.node "b " []]] ∧ O'.outline .standard = .ok text' := by
  obtain ⟨O, hparse, htrees⟩ : ∃ O, parse .standard "+- a\r\n\n  b \n" = .ok O ∧
      O.entries.mapM O.forest.subtree = .ok [.node "a" [.node "b " []]] := ⟨_, rfl, rfl⟩
  intro text
  have hcontent : content text.toList = ["+- a".toList, "  b ".toList] := by decide
  have hpadding : ∀ line ∈ content text.toList, Line.width line ≤ 65535 := by
    rw [hcontent]
    decide
  have hplain : OutlineStyle.standard.Plain := ⟨by decide, by decide⟩
  have hsurvives : ∀ line ∈ content text.toList, Line.Survives .standard line := by
    intro line hline
    refine ⟨?_, Or.inl hplain⟩
    rw [hcontent] at hline
    revert line
    decide
  obtain ⟨ts, text', hts, houtline, hiff, hagain⟩ := reread_iff .standard text O hparse hpadding
  obtain rfl := Except.ok.inj (hts.symm.trans htrees)
  obtain ⟨O', hparse', htrees'⟩ := hiff.2 hsurvives
  exact ⟨O, hparse, hpadding, text', O', houtline, hparse', htrees', hagain O' hparse' htrees'⟩

/-- A carriage return that ends the text belongs to the value, and when the value is written it belongs to the end
    of the line. -/
theorem reread_of_return :
    ∃ O O', parse .standard "+- a\r" = .ok O ∧ O.entries.mapM O.forest.subtree = .ok [.node "a\r" []] ∧
      O.outline .standard = .ok "+- a\r\n" ∧ parse .standard "+- a\r\n" = .ok O' ∧
      O'.entries.mapM O'.forest.subtree = .ok [.node "a" []] ∧ O'.outline .standard = .ok "+- a\n" :=
  ⟨_, _, rfl, rfl, rfl, rfl, rfl, rfl⟩

/-- A space at the beginning of the lead is counted with the indentation. -/
example : parse ⟨2, " - "⟩ " - a\n" = .error (.outline 1 (.betweenLevels 1 2)) := rfl

end OutlineForest

end Grove
