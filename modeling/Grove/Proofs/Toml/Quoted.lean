import Grove.Toml.Quoted
import Mathlib.Data.List.Basic

/-!
# `Proofs.Toml.Quoted` — strings are read back

Each of the four forms of a string is read back as the text it was written for (`readString_writeAs`), provided
that the form can hold the text (`QuoteForm.Holds`), and the form that is chosen can (`holds_quoteForm`).

In the basic forms a character is written in one of four ways (`Written`), and each of them is read as the
character whatever follows. The forms over several lines take more care: what a quote there stands for depends on
the quotes around it. So both inductions are about the text together with the quotes of the run that reaches up to
it, of which there are never more than two.
-/

namespace Grove.Toml

/-! ## Characters -/

/-- A character that stands for itself in no form is written with an escape. -/
theorem isStringChar_of_needsCode {c : Char} (hcode : needsCode c = false) (hfeed : c ≠ '\n') :
    isStringChar c = true := by
  have hne : c.toNat ≠ 10 := fun h => hfeed (Char.toNat_inj.1 h)
  simp only [needsCode, Bool.or_eq_false_iff, Bool.and_eq_false_iff, decide_eq_false_iff_not, bne_eq_false_iff_eq,
    beq_eq_false_iff_ne, ne_eq, ← Char.toNat_inj, Char.lt_def, UInt32.lt_iff_toNat_lt] at hcode
  simp only [isStringChar, isCommentChar, Bool.or_eq_true, Bool.and_eq_true, decide_eq_true_eq, beq_iff_eq,
    ← Char.toNat_inj, Char.le_def, Char.lt_def, UInt32.le_iff_toNat_le, UInt32.lt_iff_toNat_lt]
  change ((¬ c.toNat < 32 ∨ c.toNat = 9) ∨ c.toNat = 10) ∧ ¬ c.toNat = 127 at hcode
  change (c.toNat = 9 ∨ 32 ≤ c.toNat ∧ c.toNat ≤ 126) ∨ 127 < c.toNat
  omega

/-- A carriage return does not stand for itself anywhere. -/
theorem ne_return_of_isStringChar {c : Char} (h : isStringChar c = true) : c ≠ '\r' := by
  rintro rfl
  cases h

theorem newline?_cons_eq_none {c : Char} (hchar : isStringChar c = true) (hfeed : c ≠ '\n') (t : List Char) :
    newline? (c :: t) = none := by
  rw [newline?]
  · exact fun _ heq => hfeed (List.cons.inj heq).1
  · exact fun _ heq => ne_return_of_isStringChar hchar (List.cons.inj heq).1

/-- The code of a control character is read as that character. -/
theorem scalar?_codeEscape {c : Char} (h : needsCode c = true) :
    scalar? ['0', '0', hexDigit (c.toNat / 16), hexDigit (c.toNat % 16)] = some c := by
  have hall : ∀ n < 128, scalar? ['0', '0', hexDigit (n / 16), hexDigit (n % 16)] = some (Char.ofNat n) := by
    decide
  have hlt : c.toNat < 128 := by
    simp only [needsCode, Bool.or_eq_true, Bool.and_eq_true, decide_eq_true_eq, beq_iff_eq, Char.lt_def,
      UInt32.lt_iff_toNat_lt] at h
    rcases h with ⟨⟨h, -⟩, -⟩ | rfl
    · exact Nat.lt_trans h (by decide)
    · decide
  rw [hall c.toNat hlt, Char.ofNat_toNat]

/-! ## Runs of quotes -/

theorem replicate_succ_append (q : Char) (run : Nat) (t : List Char) :
    List.replicate (run + 1) q ++ t = List.replicate run q ++ q :: t := by
  rw [List.replicate_succ', List.append_assoc, List.singleton_append]

/-- Up to two quotes that no third follows are part of the text, where only three of them are taken for the end. -/
theorem read_quotes {q : Char} {read : List Char → Option (List Char × List Char)}
    (hstands : ∀ t, (∀ rest, t ≠ q :: q :: rest) → read (q :: t) = prepend q (read t)) {run : Nat} (hrun : run ≤ 2)
    {t s rest : List Char} (ht : t.head? ≠ some q) (h : read t = some (s, rest)) :
    read (List.replicate run q ++ t) = some (List.replicate run q ++ s, rest) := by
  have hone : read (q :: t) = prepend q (read t) := by
    apply hstands
    rintro tail rfl
    exact ht rfl
  have htwo : read (q :: q :: t) = prepend q (read (q :: t)) := by
    apply hstands
    intro tail heq
    rw [(List.cons.inj heq).2] at ht
    exact ht rfl
  obtain rfl | rfl | rfl : run = 0 ∨ run = 1 ∨ run = 2 := by omega
  · exact h
  · show read (q :: t) = _
    rw [hone, h]
    rfl
  · show read (q :: q :: t) = _
    rw [htwo, hone, h]
    rfl

/-! ## The basic forms -/

/-- A character that stands for itself over several lines, unless it is the first of three quotes. -/
theorem readMultiBasic_cons {c : Char} (hchar : isStringChar c = true) (hslash : c ≠ '\\') {t : List Char}
    (hquotes : c = '"' → ∀ rest, t ≠ '"' :: '"' :: rest) :
    readMultiBasic false (c :: t) = prepend c (readMultiBasic false t) := by
  have hreturn := ne_return_of_isStringChar hchar
  rw [readMultiBasic.eq_def]
  split <;> simp_all

/-- The ways in which a character is written in a basic form: as it is, by a letter or by its code. -/
inductive Written (multi : Bool) (c : Char) : List Char → Prop where
  | plain (hchar : isStringChar c = true) (hslash : c ≠ '\\') (hquote : c ≠ '"') : Written multi c [c]
  | feed (hmulti : multi = true) (hfeed : c = '\n') : Written multi c ['\n']
  | short (e : Char) (hshort : shortEscape? e = some c) : Written multi c ['\\', e]
  | code (h k l m : Char) (hscalar : scalar? [h, k, l, m] = some c) : Written multi c ['\\', 'u', h, k, l, m]

/-- Unless it is a quote that may stand as it is, the first character of a text is written in one of these ways, and
    the rest as if it had no quotes before it. -/
theorem escape_cons {multi : Bool} (run : Nat) (c : Char) (h : multi = false ∨ run = 2 ∨ c ≠ '"') (s : List Char) :
    ∃ w, Written multi c w ∧ escape multi run (c :: s) = w ++ escape multi 0 s := by
  by_cases hquote : c = '"'
  · subst hquote
    refine ⟨['\\', '"'], .short '"' rfl, ?_⟩
    have hcond : (!multi || decide (run = 2)) = true := by simpa using h
    rw [escape, if_pos hcond]
    rfl
  by_cases hfeed : c = '\n'
  · subst hfeed
    cases multi with
    | true => exact ⟨['\n'], .feed rfl rfl, rfl⟩
    | false => exact ⟨['\\', 'n'], .short 'n' rfl, rfl⟩
  rw [escape.eq_def]
  split
  case h_9 hslash heq =>
    obtain ⟨rfl, rfl⟩ := List.cons.inj heq
    cases hcode : needsCode c with
    | true => exact ⟨codeEscape c, .code _ _ _ _ (scalar?_codeEscape hcode), rfl⟩
    | false => exact ⟨[c], .plain (isStringChar_of_needsCode hcode hfeed) (by simpa using hslash) hquote, rfl⟩
  -- there is a character, which is neither a quote nor a line feed, so one of the five other letters stands for it
  all_goals simp_all
  all_goals exact ⟨_, .short _ rfl, rfl⟩

namespace Written

variable {multi : Bool} {c : Char} {w : List Char}

/-- A quote is never the first character: as a character of the text it comes after a backslash. -/
theorem head?_ne_quote (h : Written multi c w) (t : List Char) : (w ++ t).head? ≠ some '"' := by
  cases h with
  | plain _ _ hquote => simpa using hquote
  | feed => simp
  | short => simp
  | code => simp

/-- Only a line feed that stands as it is could be taken for a line end. -/
theorem newline?_eq_none (h : Written multi c w) (hfeed : c ≠ '\n') (t : List Char) : newline? (w ++ t) = none := by
  cases h with
  | plain hchar =>
    exact newline?_cons_eq_none hchar hfeed t
  | feed _ heq => exact absurd heq hfeed
  | short => rfl
  | code => rfl

/-- What was written for a character is read as that character. -/
theorem readBasic_eq (h : Written false c w) (t : List Char) : readBasic (w ++ t) = prepend c (readBasic t) := by
  cases h with
  | plain hchar hslash hquote =>
    rw [List.singleton_append, readBasic.eq_def]
    split <;> simp_all
  | feed hmulti => cases hmulti
  | short e hshort =>
    unfold shortEscape? at hshort
    split at hshort <;> cases hshort <;> rfl
  | code h k l m hscalar =>
    show (scalar? [h, k, l, m] >>= fun d => prepend d (readBasic t)) = _
    rw [hscalar]
    rfl

/-- So it is in the form over several lines. -/
theorem readMultiBasic_eq (h : Written true c w) (t : List Char) :
    readMultiBasic false (w ++ t) = prepend c (readMultiBasic false t) := by
  cases h with
  | plain hchar hslash hquote =>
    exact readMultiBasic_cons hchar hslash fun heq => absurd heq hquote
  | feed _ hfeed =>
    subst hfeed
    rfl
  | short e hshort =>
    unfold shortEscape? at hshort
    split at hshort <;> cases hshort <;> rfl
  | code h k l m hscalar =>
    show (scalar? [h, k, l, m] >>= fun d => prepend d (readMultiBasic false t)) = _
    rw [hscalar]
    rfl

end Written

/-- **The basic form is read back.** -/
theorem readBasic_escape (s rest : List Char) : readBasic (escape false 0 s ++ '"' :: rest) = some (s, rest) := by
  induction s with
  | nil => rfl
  | cons c s ih =>
    obtain ⟨w, hw, hescape⟩ := escape_cons 0 c (.inl rfl) s
    rw [hescape, List.append_assoc, hw.readBasic_eq, ih]
    rfl

/-- **The basic form over several lines is read back.** The `run` quotes before the rest of the text are part of it,
    but cannot be told from the closing ones before that rest is known. -/
theorem readMultiBasic_escape (run : Nat) (hrun : run ≤ 2) (s : List Char) {rest : List Char}
    (hrest : rest.head? ≠ some '"') :
    readMultiBasic false (List.replicate run '"' ++ (escape true run s ++ '"' :: '"' :: '"' :: rest))
      = some (List.replicate run '"' ++ s, rest) := by
  induction s generalizing run with
  | nil =>
    -- there are three to five quotes, and the last three close because no other follows
    obtain rfl | rfl | rfl : run = 0 ∨ run = 1 ∨ run = 2 := by omega
    all_goals cases rest with
      | nil => rfl
      | cons d rest => simp_all [readMultiBasic, escape, List.replicate]
  | cons c s ih =>
    by_cases hquote : c = '"' ∧ run < 2
    · -- the run grows by one quote
      obtain ⟨rfl, hlt⟩ := hquote
      have hescape : escape true run ('"' :: s) = '"' :: escape true (run + 1) s := by
        rw [escape, if_neg]
        simp
        omega
      have hgrown := ih (run + 1) (by omega)
      rw [replicate_succ_append, replicate_succ_append] at hgrown
      rw [hescape]
      exact hgrown
    · -- the run ends here, at another character or at a quote that is escaped
      have hend : run = 2 ∨ c ≠ '"' := by grind
      obtain ⟨w, hw, hescape⟩ := escape_cons run c (.inr hend) s
      rw [hescape, List.append_assoc]
      apply read_quotes (fun t hthird => readMultiBasic_cons rfl (by decide) fun _ => hthird) hrun
        (hw.head?_ne_quote _)
      have hafter := ih 0 (Nat.zero_le 2)
      rw [List.replicate_zero, List.nil_append, List.nil_append] at hafter
      rw [hw.readMultiBasic_eq, hafter]
      rfl

/-! ## The literal forms -/

/-- **The literal form is read back** if it can hold the text. -/
theorem readLiteral_append {s : List Char} (hchars : ∀ c ∈ s, isStringChar c = true ∧ c ≠ '\'') (rest : List Char) :
    readLiteral (s ++ '\'' :: rest) = some (s, rest) := by
  induction s with
  | nil => rfl
  | cons c s ih =>
    obtain ⟨hchar, hquote⟩ := hchars c (List.mem_cons_self ..)
    rw [List.cons_append, readLiteral, if_pos hchar, ih fun d hd => hchars d (List.mem_cons_of_mem c hd)]
    · rfl
    · exact hquote

/-- A character that stands for itself over several lines, unless it is the first of three quotes. -/
theorem readMultiLiteral_cons {c : Char} (hchar : c = '\n' ∨ isStringChar c = true) {t : List Char}
    (hquotes : c = '\'' → ∀ rest, t ≠ '\'' :: '\'' :: rest) :
    readMultiLiteral (c :: t) = prepend c (readMultiLiteral t) := by
  have hreturn : c ≠ '\r' := by
    rcases hchar with rfl | hchar
    · decide
    · exact ne_return_of_isStringChar hchar
  have hstands : (c == '\n' || isStringChar c) = true := by simpa using hchar
  rw [readMultiLiteral.eq_def]
  split
  case h_6 heq =>
    obtain ⟨rfl, rfl⟩ := List.cons.inj heq
    rw [if_pos hstands]
  -- the other cases are of three quotes, a carriage return or no character
  all_goals simp_all

theorem le_longestRun (q : Char) (run longest : Nat) (s : List Char) : longest ≤ longestRun q run longest s := by
  induction s generalizing run longest with
  | nil => exact Nat.le_refl longest
  | cons c s ih =>
    unfold longestRun
    split
    · exact Nat.le_trans (Nat.le_max_left ..) (ih _ _)
    · exact ih _ _

/-- Without runs there are no quotes. -/
theorem longestRun_pos {q : Char} {s : List Char} (h : q ∈ s) (run longest : Nat) :
    0 < longestRun q run longest s := by
  induction s generalizing run longest with
  | nil => cases h
  | cons c s ih =>
    unfold longestRun
    split
    · have hle := le_longestRun q (run + 1) (max longest (run + 1)) s
      omega
    · rename_i hne
      rcases List.mem_cons.1 h with heq | hmem
      · exact absurd heq.symm hne
      · exact ih hmem _ _

/-- **The literal form over several lines is read back** if it can hold the text, of which the `run` quotes before
    the rest are part. -/
theorem readMultiLiteral_append (run : Nat) {longest : Nat} {s : List Char} (hle : run ≤ longest)
    (hchars : ∀ c ∈ s, c = '\n' ∨ isStringChar c = true) (hruns : longestRun '\'' run longest s ≤ 2)
    {rest : List Char} (hrest : rest.head? ≠ some '\'') :
    readMultiLiteral (List.replicate run '\'' ++ (s ++ '\'' :: '\'' :: '\'' :: rest))
      = some (List.replicate run '\'' ++ s, rest) := by
  have hrun : run ≤ 2 := Nat.le_trans hle (Nat.le_trans (le_longestRun ..) hruns)
  induction s generalizing run longest with
  | nil =>
    -- as in the basic form, three to five quotes
    obtain rfl | rfl | rfl : run = 0 ∨ run = 1 ∨ run = 2 := by omega
    all_goals cases rest with
      | nil => rfl
      | cons d rest => simp_all [readMultiLiteral, List.replicate]
  | cons c s ih =>
    have hchars' := fun d hd => hchars d (List.mem_cons_of_mem c hd)
    unfold longestRun at hruns
    split at hruns
    · -- the run grows by one quote
      rename_i heq
      subst heq
      have hgrown := ih (run + 1) (Nat.le_max_right ..) hchars' hruns
        (Nat.le_trans (Nat.le_max_right ..) (Nat.le_trans (le_longestRun ..) hruns))
      rw [replicate_succ_append, replicate_succ_append] at hgrown
      exact hgrown
    · -- the run ends here
      rename_i hne
      have hafter := ih 0 (Nat.zero_le _) hchars' hruns (Nat.zero_le 2)
      rw [List.replicate_zero, List.nil_append, List.nil_append] at hafter
      apply read_quotes (fun t hthird => readMultiLiteral_cons (.inr rfl) fun _ => hthird) hrun (by simpa using hne)
      rw [List.cons_append, readMultiLiteral_cons (hchars c (List.mem_cons_self ..)) fun heq => absurd heq hne,
        hafter]
      rfl

/-! ## All forms -/

/-- What a text may be made of to be held by a form. The basic forms hold every text. -/
def QuoteForm.Holds (s : List Char) : QuoteForm → Prop
  | .basic | .multiBasic => True
  | .literal => ∀ c ∈ s, isStringChar c = true ∧ c ≠ '\''
  | .multiLiteral => (∀ c ∈ s, c = '\n' ∨ isStringChar c = true) ∧ longestRun '\'' 0 0 s ≤ 2

theorem isStringChar_of_not_coded {s : List Char} (hcoded : s.any needsCode = false) :
    ∀ c ∈ s, c = '\n' ∨ isStringChar c = true := by
  intro c hc
  rw [List.any_eq_false] at hcoded
  by_cases hfeed : c = '\n'
  · exact .inl hfeed
  · exact .inr (isStringChar_of_needsCode (by simpa using hcoded c hc) hfeed)

/-- **The form that is chosen for a text can hold it.** -/
theorem holds_quoteForm (s : List Char) : (quoteForm s).Holds s := by
  unfold quoteForm
  dsimp only
  split_ifs with hbasic hliteral hmulti hmultiLiteral
  · trivial
  · simp only [Bool.and_eq_true, Bool.not_eq_true', decide_eq_true_eq, List.contains_eq_mem,
      decide_eq_false_iff_not] at hliteral
    obtain ⟨⟨hcoded, hsingles⟩, hbroken⟩ := hliteral
    intro c hc
    constructor
    · refine (isStringChar_of_not_coded hcoded c hc).resolve_left ?_
      rintro rfl
      exact hbroken hc
    · rintro rfl
      exact absurd hsingles (Nat.ne_of_gt (longestRun_pos hc 0 0))
  · trivial
  · simp only [Bool.and_eq_true, Bool.not_eq_true', decide_eq_true_eq] at hmultiLiteral
    exact ⟨isStringChar_of_not_coded hmultiLiteral.1, hmultiLiteral.2⟩
  · trivial
  · trivial

/-- A line end that is put first for a text with line feeds does not count, and in a text without there is none. -/
theorem getD_newline?_opening {s t : List Char} (h : '\n' ∉ s → newline? t = none) :
    (newline? (writeAs.opening s ++ t)).getD (writeAs.opening s ++ t) = t := by
  unfold writeAs.opening
  by_cases hfeed : '\n' ∈ s
  · rw [if_pos (by simpa using hfeed)]
    rfl
  · rw [if_neg (by simpa using hfeed), List.nil_append, h hfeed]
    rfl

/-- A quote that no two others follow opens a basic string. -/
theorem readString_basic {t s rest : List Char} (hquotes : ∀ tail, t ≠ '"' :: '"' :: tail)
    (h : readBasic t = some (s, rest)) : readString ('"' :: t) = some (String.ofList s, rest) := by
  unfold readString
  split <;> simp_all

theorem readString_literal {t s rest : List Char} (hquotes : ∀ tail, t ≠ '\'' :: '\'' :: tail)
    (h : readLiteral t = some (s, rest)) : readString ('\'' :: t) = some (String.ofList s, rest) := by
  unfold readString
  split <;> simp_all

theorem readString_multiBasic {t s rest : List Char}
    (h : readMultiBasic false ((newline? t).getD t) = some (s, rest)) :
    readString ('"' :: '"' :: '"' :: t) = some (String.ofList s, rest) := by
  show (readMultiBasic false ((newline? t).getD t) >>= _) = _
  rw [h]
  rfl

theorem readString_multiLiteral {t s rest : List Char}
    (h : readMultiLiteral ((newline? t).getD t) = some (s, rest)) :
    readString ('\'' :: '\'' :: '\'' :: t) = some (String.ofList s, rest) := by
  show (readMultiLiteral ((newline? t).getD t) >>= _) = _
  rw [h]
  rfl

/-- A single line is neither empty quotes before a third nor a line that begins with two. -/
theorem ne_two_quotes {q : Char} {t rest : List Char} (ht : t = [] ∨ t.head? ≠ some q) (hrest : rest.head? ≠ some q)
    (tail : List Char) : t ++ q :: rest ≠ q :: q :: tail := by
  rintro heq
  cases t with
  | nil =>
    rw [List.nil_append, List.cons.injEq] at heq
    rw [heq.2] at hrest
    exact hrest rfl
  | cons c t =>
    rw [List.cons_append, List.cons.injEq] at heq
    rw [heq.1] at ht
    simp at ht

/-- **A text is read back from every form that can hold it.** -/
theorem readString_writeAs {s : List Char} {form : QuoteForm} (h : form.Holds s) {rest : List Char}
    (hdouble : rest.head? ≠ some '"') (hsingle : rest.head? ≠ some '\'') :
    readString (writeAs s form ++ rest) = some (String.ofList s, rest) := by
  cases form with
  | basic =>
    show readString ('"' :: (escape false 0 s ++ ['"']) ++ rest) = _
    rw [List.cons_append, List.append_assoc, List.singleton_append]
    apply readString_basic (ne_two_quotes _ hdouble) (readBasic_escape s rest)
    cases s with
    | nil => exact .inl rfl
    | cons c s =>
      obtain ⟨w, hw, hescape⟩ := escape_cons 0 c (.inl rfl) s
      rw [hescape]
      exact .inr (hw.head?_ne_quote _)
  | literal =>
    show readString ('\'' :: (s ++ ['\'']) ++ rest) = _
    rw [List.cons_append, List.append_assoc, List.singleton_append]
    apply readString_literal (ne_two_quotes _ hsingle) (readLiteral_append h rest)
    cases s with
    | nil => exact .inl rfl
    | cons c s =>
      refine .inr fun heq => (h c (List.mem_cons_self ..)).2 ?_
      exact Option.some.inj heq
  | multiBasic =>
    have hread := readMultiBasic_escape 0 (Nat.zero_le 2) s hdouble
    show readString ('"' :: '"' :: '"' :: (writeAs.opening s ++ escape true 0 s ++ ['"', '"', '"']) ++ rest) = _
    rw [List.cons_append, List.cons_append, List.cons_append, List.append_assoc, List.append_assoc]
    apply readString_multiBasic
    rw [getD_newline?_opening]
    · exact hread
    intro hfeed
    cases s with
    | nil => rfl
    | cons c s =>
      by_cases hquote : c = '"'
      · subst hquote
        rfl
      obtain ⟨w, hw, hescape⟩ := escape_cons 0 c (.inr (.inr hquote)) s
      rw [hescape, List.append_assoc]
      exact hw.newline?_eq_none (fun heq => hfeed (heq ▸ List.mem_cons_self ..)) _
  | multiLiteral =>
    have hread := readMultiLiteral_append 0 (Nat.zero_le 0) h.1 h.2 hsingle
    show readString ('\'' :: '\'' :: '\'' :: (writeAs.opening s ++ s ++ ['\'', '\'', '\'']) ++ rest) = _
    rw [List.cons_append, List.cons_append, List.cons_append, List.append_assoc, List.append_assoc]
    apply readString_multiLiteral
    rw [getD_newline?_opening]
    · exact hread
    intro hfeed
    cases s with
    | nil => rfl
    | cons c s =>
      have hchar := (h.1 c (List.mem_cons_self ..)).resolve_left fun heq => hfeed (heq ▸ List.mem_cons_self ..)
      exact newline?_cons_eq_none hchar (fun heq => hfeed (heq ▸ List.mem_cons_self ..)) _

/-- **A string that was written is read back**, whichever form was chosen for it, if no quote follows it. -/
theorem readString_writeString (text : String) {rest : List Char} (hdouble : rest.head? ≠ some '"')
    (hsingle : rest.head? ≠ some '\'') :
    readString ((writeString text).toList ++ rest) = some (text, rest) := by
  unfold writeString
  rw [String.toList_ofList, readString_writeAs (holds_quoteForm text.toList) hdouble hsingle, String.ofList_toList]

end Grove.Toml
