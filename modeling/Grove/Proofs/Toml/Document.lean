import Grove.Proofs.Toml.Quoted
import Grove.Toml.Document

/-!
# `Proofs.Toml.Document` — written lines are read back

A number that is written in decimal digits is read as that number and not as the beginning of a date or a float:
what comes after its digits is a line feed, and each of the others needs another character there. With that each of
the two kinds of lines that are written, a section and a setting, is read as one statement whatever follows it
(`IsLine`, `isLine_header`, `isLine_pair`), and a text of such lines as their list (`readStatements_flatten`).
-/

namespace Grove.Toml

/-! ## Numbers -/

theorem digit?_of_isDigit {c : Char} (h : c.isDigit = true) : digit? 10 c = some (c.toNat - '0'.toNat) := by
  rw [Char.isDigit_iff_toNat] at h
  have hrange : (decide ('0' ≤ c) && decide (c ≤ '9')) = true := by
    rw [Bool.and_eq_true, decide_eq_true_eq, decide_eq_true_eq]
    exact h
  have hlt : c.toNat - '0'.toNat < 10 := by
    have hle : c.toNat ≤ 57 := h.2
    have hzero : '0'.toNat = 48 := rfl
    omega
  unfold digit?
  rw [if_pos hrange]
  exact if_pos hlt

theorem isDigit_of_isDigit {c : Char} (h : c.isDigit = true) : isDigit 10 c = true := by
  unfold isDigit
  rw [digit?_of_isDigit h]
  rfl

/-- Digits spell the number that they are the digits of. -/
theorem numeral_toDigits (n : Nat) : numeral 10 (Nat.toDigits 10 n) = n := by
  have hvalues : ∀ acc : Nat, ∀ c ∈ Nat.toDigits 10 n,
      10 * acc + (digit? 10 c).getD 0 = 10 * acc + (c.toNat - '0'.toNat) := by
    intro acc c hc
    rw [digit?_of_isDigit (Nat.isDigit_of_mem_toDigits (by decide) (by decide) hc)]
    rfl
  unfold numeral
  rw [List.foldl_ext _ _ _ hvalues, ← Nat.ofDigitChars_eq_foldl, Nat.ofDigitChars_ten_toDigits]

/-- There is no leading zero: a zero that comes first is the whole number. -/
theorem toDigits_head?_ne_zero {n : Nat} (hn : n ≠ 0) : (Nat.toDigits 10 n).head? ≠ some '0' := by
  induction n using Nat.strongRecOn with
  | ind n ih =>
    by_cases hlt : n < 10
    · rw [Nat.toDigits_of_lt_base hlt, List.head?_cons, ne_eq, Option.some.injEq, Nat.digitChar_eq_zero]
      exact hn
    · rw [Nat.toDigits_of_base_le (by decide) (by omega), List.head?_append_of_ne_nil _ Nat.toDigits_ne_nil]
      exact ih (n / 10) (by omega) (by omega)

section Digits

variable {ds : List Char} (hds : ∀ c ∈ ds, c.isDigit = true) (rest : List Char)
include hds

/-- Digits are taken up to the line feed after them. -/
theorem moreDigits_append : moreDigits 10 (ds ++ '\n' :: rest) = (ds, '\n' :: rest) := by
  induction ds with
  | nil =>
    unfold moreDigits
    rfl
  | cons d ds ih =>
    have hd := hds d (List.mem_cons_self ..)
    have hscore : d ≠ '_' := by
      rintro rfl
      cases hd
    have hrest := ih fun c hc => hds c (List.mem_cons_of_mem d hc)
    rw [List.cons_append, moreDigits, if_pos (isDigit_of_isDigit hd), hrest]
    exact fun _ _ heq => absurd heq hscore

theorem readDigits_append (hne : ds ≠ []) : readDigits 10 (ds ++ '\n' :: rest) = some (ds, '\n' :: rest) := by
  obtain ⟨d, ds, rfl⟩ := List.exists_cons_of_ne_nil hne
  have hmore := moreDigits_append (fun c hc => hds c (List.mem_cons_of_mem d hc)) rest
  rw [List.cons_append, readDigits, if_pos (isDigit_of_isDigit (hds d (List.mem_cons_self ..))), hmore]

/-- Behind digits there are digits and the line feed. -/
theorem after?_eq_none {c : Char} (hdigit : c.isDigit = false) (hfeed : c ≠ '\n') :
    after? c (ds ++ '\n' :: rest) = none := by
  cases ds with
  | nil => exact if_neg hfeed
  | cons d ds =>
    refine if_neg ?_
    rintro rfl
    rw [hds c (List.mem_cons_self ..)] at hdigit
    cases hdigit

omit hds in
/-- Counted digits are all from before the line feed. -/
theorem readCount_append {count n : Nat} {t : List Char} (h : readCount count (ds ++ '\n' :: rest) = some (n, t)) :
    t = ds.drop count ++ '\n' :: rest := by
  simp only [readCount, Option.ite_none_right_eq_some, Bool.and_eq_true, decide_eq_true_eq, List.all_eq_true,
    Option.some.injEq, Prod.mk.injEq] at h
  obtain ⟨⟨-, hall⟩, -, rfl⟩ := h
  by_cases hle : count ≤ ds.length
  · exact List.drop_append_of_le_length hle
  · -- otherwise the line feed would be one of them
    have hmem : '\n' ∈ (ds ++ '\n' :: rest).take count := by
      rw [List.take_append, List.mem_append]
      obtain ⟨k, hk⟩ : ∃ k, count - ds.length = k + 1 := ⟨count - ds.length - 1, by omega⟩
      rw [hk]
      exact .inr (List.mem_cons_self ..)
    cases hall '\n' hmem

/-- So no date or time begins there. -/
theorem readDateTime_eq_none : readDateTime (ds ++ '\n' :: rest) = none := by
  have hafter (count : Nat) {c : Char} (hdigit : c.isDigit = false) (hfeed : c ≠ '\n') :
      after? c (ds.drop count ++ '\n' :: rest) = none :=
    after?_eq_none (fun d hd => hds d (List.mem_of_mem_drop hd)) rest hdigit hfeed
  have hdate : skipDate (ds ++ '\n' :: rest) = none := by
    unfold skipDate
    cases hyear : readCount 4 (ds ++ '\n' :: rest) with
    | none => rfl
    | some found =>
      obtain ⟨year, t⟩ := found
      rw [readCount_append rest hyear]
      show (after? '-' _ >>= _) = none
      rw [hafter 4 rfl (by decide)]
      rfl
  have htime : skipTime (ds ++ '\n' :: rest) = none := by
    unfold skipTime readBounded
    cases hhour : readCount 2 (ds ++ '\n' :: rest) with
    | none => rfl
    | some found =>
      obtain ⟨hour, t⟩ := found
      rw [readCount_append rest hhour]
      show (if 0 ≤ hour && hour ≤ 23 then some _ else none) >>= _ = none
      split
      · show (after? ':' _ >>= _) = none
        rw [hafter 2 rfl (by decide)]
        rfl
      · rfl
  unfold readDateTime
  rw [hdate, htime]
  rfl

end Digits

section Written

variable (n : Nat) (rest : List Char)

theorem isDigit_of_mem_toDigits {c : Char} (hc : c ∈ Nat.toDigits 10 n) : c.isDigit = true :=
  Nat.isDigit_of_mem_toDigits (by decide) (by decide) hc

theorem exists_toDigits_eq_cons :
    ∃ d ds, Nat.toDigits 10 n = d :: ds ∧ d.isDigit = true ∧ ∀ c ∈ ds, c.isDigit = true := by
  have hne : Nat.toDigits 10 n ≠ [] := Nat.toDigits_ne_nil
  obtain ⟨d, ds, hcons⟩ := List.exists_cons_of_ne_nil hne
  have hdigits : ∀ c ∈ Nat.toDigits 10 n, c.isDigit = true := fun c => isDigit_of_mem_toDigits n
  rw [hcons, List.forall_mem_cons] at hdigits
  exact ⟨d, ds, hcons, hdigits⟩

variable {n rest}

/-- Only a digit comes first. -/
theorem toDigits_append_ne_cons {a : Char} (ha : a.isDigit = false) (tail : List Char) :
    Nat.toDigits 10 n ++ '\n' :: rest ≠ a :: tail := by
  obtain ⟨d, ds, hcons, hd, -⟩ := exists_toDigits_eq_cons n
  rw [hcons]
  rintro heq
  rw [(List.cons.inj heq).1, ha] at hd
  cases hd

/-- What comes second is a digit or the line feed. -/
theorem toDigits_append_ne_cons_cons {a b : Char} (hb : b.isDigit = false) (hfeed : b ≠ '\n') (tail : List Char) :
    Nat.toDigits 10 n ++ '\n' :: rest ≠ a :: b :: tail := by
  obtain ⟨d, ds, hcons, -, hds⟩ := exists_toDigits_eq_cons n
  rw [hcons]
  rintro heq
  have hrest := (List.cons.inj heq).2
  cases ds with
  | nil => exact hfeed (List.cons.inj hrest).1.symm
  | cons e ds =>
    rw [← (List.cons.inj hrest).1, hds e (List.mem_cons_self ..)] at hb
    cases hb

variable (n rest)

/-- No sign comes first. -/
theorem readSign_toDigits :
    readSign (Nat.toDigits 10 n ++ '\n' :: rest) = (false, Nat.toDigits 10 n ++ '\n' :: rest) := by
  unfold readSign
  split
  case h_1 heq => exact absurd heq (toDigits_append_ne_cons rfl _)
  case h_2 heq => exact absurd heq (toDigits_append_ne_cons rfl _)
  case h_3 => rfl

theorem readDecimal_toDigits :
    readDecimal (Nat.toDigits 10 n ++ '\n' :: rest) = some (Nat.toDigits 10 n, '\n' :: rest) := by
  by_cases hn : n = 0
  · subst hn
    rfl
  · rw [readDecimal.eq_def]
    split
    · rename_i tail heq
      have hhead := toDigits_head?_ne_zero hn
      rw [← List.head?_append_of_ne_nil _ Nat.toDigits_ne_nil, heq] at hhead
      exact absurd rfl hhead
    · exact readDigits_append (fun c hc => isDigit_of_mem_toDigits n hc) rest Nat.toDigits_ne_nil

/-- Neither a fraction nor an exponent follows. -/
theorem readFloat_toDigits : readFloat (Nat.toDigits 10 n ++ '\n' :: rest) = none := by
  unfold readFloat
  simp only [readSign_toDigits]
  split
  case h_1 heq => exact absurd heq (toDigits_append_ne_cons rfl _)
  case h_2 heq => exact absurd heq (toDigits_append_ne_cons rfl _)
  case h_3 =>
    rw [readDecimal_toDigits]
    rfl

theorem readInteger_toDigits (hn : n ≤ 9223372036854775807) :
    readInteger (Nat.toDigits 10 n ++ '\n' :: rest) = some ((n : Int), '\n' :: rest) := by
  have hword : word? n = some (n : Int) := by
    refine if_pos ?_
    rw [Bool.and_eq_true, decide_eq_true_eq, decide_eq_true_eq]
    omega
  unfold readInteger
  simp only [readSign_toDigits]
  split
  case h_1 heq => exact absurd heq (toDigits_append_ne_cons_cons rfl (by decide) _)
  case h_2 heq => exact absurd heq (toDigits_append_ne_cons_cons rfl (by decide) _)
  case h_3 heq => exact absurd heq (toDigits_append_ne_cons_cons rfl (by decide) _)
  case h_4 =>
    rw [readDecimal_toDigits]
    show (word? (numeral 10 (Nat.toDigits 10 n)) >>= _) = _
    rw [numeral_toDigits, hword]
    rfl

theorem readScalar_toDigits (hn : n ≤ 9223372036854775807) :
    readScalar (Nat.toDigits 10 n ++ '\n' :: rest) = some (.integer n, '\n' :: rest) := by
  unfold readScalar
  split
  case h_1 heq => exact absurd heq (toDigits_append_ne_cons rfl _)
  case h_2 heq => exact absurd heq (toDigits_append_ne_cons rfl _)
  case h_3 heq => exact absurd heq (toDigits_append_ne_cons rfl _)
  case h_4 heq => exact absurd heq (toDigits_append_ne_cons rfl _)
  case h_5 =>
    rw [readDateTime_eq_none (fun c hc => isDigit_of_mem_toDigits n hc), readFloat_toDigits,
      readInteger_toDigits n rest hn]
    rfl

/-- **A number is read back** if it fits into 64 bits with sign. -/
theorem readValue_toDigits (hn : n ≤ 9223372036854775807) :
    readValue (Nat.toDigits 10 n ++ '\n' :: rest) = some (.integer n, '\n' :: rest) := by
  show readValueWithin (78 + 1) _ = _
  unfold readValueWithin
  split
  case h_1 heq => exact absurd heq (toDigits_append_ne_cons rfl _)
  case h_2 heq => exact absurd heq (toDigits_append_ne_cons rfl _)
  case h_3 => exact readScalar_toDigits n rest hn

end Written

/-! ## Strings -/

/-- A string begins with a quote, whatever its form. -/
theorem writeString_eq_cons (text : String) :
    ∃ tail, (writeString text).toList = '"' :: tail ∨ (writeString text).toList = '\'' :: tail := by
  unfold writeString
  rw [String.toList_ofList]
  cases quoteForm text.toList with
  | basic => exact ⟨_, .inl rfl⟩
  | literal => exact ⟨_, .inr rfl⟩
  | multiBasic => exact ⟨_, .inl rfl⟩
  | multiLiteral => exact ⟨_, .inr rfl⟩

/-- **A string is read back** as a value. -/
theorem readValue_writeString (text : String) (rest : List Char) :
    readValue ((writeString text).toList ++ '\n' :: rest) = some (.string text, '\n' :: rest) := by
  have hread : readString ((writeString text).toList ++ '\n' :: rest) = some (text, '\n' :: rest) :=
    readString_writeString text (by simp) (by simp)
  obtain ⟨tail, hcons | hcons⟩ := writeString_eq_cons text
  all_goals
    rw [hcons, List.cons_append] at hread ⊢
    show (readString _).map _ = _
    rw [hread]
    rfl

/-! ## Lines -/

/-- A key without quotes. -/
structure IsBareKey (key : String) : Prop where
  ne_nil : key.toList ≠ []
  all : key.toList.all isBareKeyChar = true

theorem IsBareKey.chars {key : String} (h : IsBareKey key) : ∀ c ∈ key.toList, isBareKeyChar c = true :=
  List.all_eq_true.1 h.all

theorem IsBareKey.exists_cons {key : String} (h : IsBareKey key) :
    ∃ c tail, key.toList = c :: tail ∧ isBareKeyChar c = true := by
  obtain ⟨c, tail, hcons⟩ := List.exists_cons_of_ne_nil h.ne_nil
  exact ⟨c, tail, hcons, h.chars c (hcons ▸ List.mem_cons_self ..)⟩

/-- The characters a written line may begin with: no white space, nor one that begins a comment. -/
def StartsLine (c : Char) : Prop :=
  c = '[' ∨ isBareKeyChar c = true

/-- Among the characters of a bare key or the opening bracket there is no `d` that is neither. -/
theorem StartsLine.ne {c d : Char} (h : StartsLine c) (hopen : d ≠ '[') (hbare : isBareKeyChar d = false) :
    c ≠ d := by
  rintro rfl
  rcases h with rfl | h
  · exact hopen rfl
  · rw [h] at hbare
    cases hbare

theorem StartsLine.isSpace_eq_false {c : Char} (h : StartsLine c) : isSpace c = false := by
  have hspace := h.ne (d := ' ') (by decide) rfl
  have htab := h.ne (d := '\t') (by decide) rfl
  simp [isSpace, hspace, htab]

theorem skipSpaces_cons {c : Char} (h : isSpace c = false) (s : List Char) : skipSpaces (c :: s) = c :: s := by
  unfold skipSpaces
  rw [List.dropWhile_cons, h]
  rfl

/-- A bare key is read up to the first character that cannot belong to it. -/
theorem readKey_bare {key : String} (hkey : IsBareKey key) {c : Char} (hc : isBareKeyChar c = false)
    {rest : List Char} (hdot : (skipSpaces (c :: rest)).head? ≠ some '.') :
    readKey (key.toList ++ c :: rest) = some ([key], skipSpaces (c :: rest)) := by
  have htake : (key.toList ++ c :: rest).takeWhile isBareKeyChar = key.toList := by
    rw [List.takeWhile_append_of_pos hkey.chars, List.takeWhile_cons, hc]
    exact List.append_nil key.toList
  have hdrop : (key.toList ++ c :: rest).dropWhile isBareKeyChar = c :: rest := by
    rw [List.dropWhile_append_of_pos hkey.chars, List.dropWhile_cons, hc]
    rfl
  obtain ⟨d, tail, hcons, hbare⟩ := hkey.exists_cons
  have hd : StartsLine d := .inr hbare
  have hsimple : readSimpleKey (skipSpaces (key.toList ++ c :: rest)) = some (key, c :: rest) := by
    have hskip : skipSpaces (key.toList ++ c :: rest) = key.toList ++ c :: rest := by
      rw [hcons, List.cons_append, skipSpaces_cons hd.isSpace_eq_false]
    rw [hskip]
    unfold readSimpleKey
    split
    case h_1 heq =>
      rw [hcons, List.cons_append, List.cons.injEq] at heq
      exact absurd heq.1 (hd.ne (by decide) rfl)
    case h_2 heq =>
      rw [hcons, List.cons_append, List.cons.injEq] at heq
      exact absurd heq.1 (hd.ne (by decide) rfl)
    case h_3 =>
      rw [htake, hdrop]
      show (if key.toList.isEmpty then none else some (String.ofList key.toList, c :: rest)) = _
      rw [String.ofList_toList]
      refine if_neg ?_
      rw [List.isEmpty_iff]
      exact hkey.ne_nil
  show readKeys (78 + 1) _ = _
  unfold readKeys
  rw [hsimple]
  simp only [Option.bind_eq_bind, Option.bind_some]
  split
  · rename_i heq
    rw [heq] at hdot
    exact absurd rfl hdot
  · rfl

/-- A line that is read as one statement, whatever follows it. -/
structure IsLine (s : List Char) (statement : Statement) : Prop where
  first : ∃ c tail, s = c :: tail ∧ StartsLine c
  read : ∀ rest, readStatement (s ++ rest) = some (statement, rest)

/-- The line that begins the section of a table. -/
theorem isLine_header {key : String} (hkey : IsBareKey key) :
    IsLine ('[' :: key.toList ++ [']', '\n']) (.header [key]) where
  first := ⟨'[', _, rfl, .inl rfl⟩
  read rest := by
    have hread : readKey (key.toList ++ ']' :: '\n' :: rest) = some ([key], ']' :: '\n' :: rest) :=
      readKey_bare hkey rfl nofun
    rw [List.append_assoc, List.cons_append, List.cons_append, List.cons_append, List.nil_append]
    unfold readStatement
    split
    case h_1 heq =>
      -- no second bracket follows
      obtain ⟨d, tail, hcons, hd⟩ := hkey.exists_cons
      simp only [hcons, List.cons_append, List.cons.injEq, true_and] at heq
      rw [heq.1] at hd
      cases hd
    case h_2 heq =>
      rw [← (List.cons.inj heq).2, hread]
      rfl
    case h_3 hopen => exact absurd rfl (hopen _)

/-- The line that gives a value to a key. -/
theorem isLine_pair {key : String} {v : List Char} {value : Value} (hkey : IsBareKey key)
    (hfirst : ∃ c tail, v = c :: tail ∧ isSpace c = false)
    (hvalue : ∀ rest, readValue (v ++ '\n' :: rest) = some (value, '\n' :: rest)) :
    IsLine (key.toList ++ ' ' :: '=' :: ' ' :: v ++ ['\n']) (.pair [key] value) where
  first := by
    obtain ⟨c, tail, hcons, hc⟩ := hkey.exists_cons
    exact ⟨c, _, by rw [hcons]; rfl, .inr hc⟩
  read rest := by
    have hread : readKey (key.toList ++ ' ' :: '=' :: ' ' :: (v ++ '\n' :: rest))
        = some ([key], '=' :: ' ' :: (v ++ '\n' :: rest)) := readKey_bare hkey rfl nofun
    have hskip : skipSpaces (' ' :: (v ++ '\n' :: rest)) = v ++ '\n' :: rest := by
      obtain ⟨c, tail, hcons, hspace⟩ := hfirst
      rw [hcons]
      exact skipSpaces_cons hspace _
    have hopen (tail : List Char) : key.toList ++ ' ' :: '=' :: ' ' :: (v ++ '\n' :: rest) ≠ '[' :: tail := by
      intro heq
      obtain ⟨d, tail, hcons, hd⟩ := hkey.exists_cons
      simp only [hcons, List.cons_append, List.cons.injEq] at heq
      rw [heq.1] at hd
      cases hd
    have hassoc : key.toList ++ ' ' :: '=' :: ' ' :: v ++ ['\n'] ++ rest
        = key.toList ++ ' ' :: '=' :: ' ' :: (v ++ '\n' :: rest) := by
      simp only [List.append_assoc, List.cons_append, List.nil_append]
    rw [hassoc]
    unfold readStatement
    split
    case h_1 heq => exact absurd heq (hopen _)
    case h_2 heq => exact absurd heq (hopen _)
    case h_3 =>
      rw [hread]
      show (readValue (skipSpaces (' ' :: (v ++ '\n' :: rest))) >>= _) = _
      rw [hskip, hvalue]
      rfl

theorem isLine_string {key : String} (hkey : IsBareKey key) (text : String) :
    IsLine (key.toList ++ ' ' :: '=' :: ' ' :: (writeString text).toList ++ ['\n']) (.pair [key] (.string text)) := by
  refine isLine_pair hkey ?_ (readValue_writeString text)
  obtain ⟨tail, hcons | hcons⟩ := writeString_eq_cons text
  · exact ⟨_, tail, hcons, rfl⟩
  · exact ⟨_, tail, hcons, rfl⟩

theorem isLine_integer {key : String} (hkey : IsBareKey key) {n : Nat} (hn : n ≤ 9223372036854775807) :
    IsLine (key.toList ++ ' ' :: '=' :: ' ' :: Nat.toDigits 10 n ++ ['\n']) (.pair [key] (.integer n)) := by
  refine isLine_pair hkey ?_ fun rest => readValue_toDigits n rest hn
  obtain ⟨d, ds, hcons, hd, -⟩ := exists_toDigits_eq_cons n
  refine ⟨d, ds, hcons, ?_⟩
  cases hspace : isSpace d with
  | false => rfl
  | true =>
    rcases (show d = ' ' ∨ d = '\t' by simpa [isSpace] using hspace) with rfl | rfl
    · cases hd
    · cases hd

/-- **Lines are read as the statements they are.** -/
theorem readStatementsWithin_flatten {lines : List (List Char)} {statements : List Statement}
    (h : List.Forall₂ IsLine lines statements) {fuel : Nat} (hfuel : lines.flatten.length ≤ fuel) :
    readStatementsWithin fuel lines.flatten = some statements := by
  induction h generalizing fuel with
  | nil => cases fuel <;> rfl
  | @cons line statement lines statements hline hlines ih =>
    obtain ⟨c, tail, hcons, hc⟩ := hline.first
    rw [List.flatten_cons, List.length_append, hcons, List.length_cons] at hfuel
    -- a line is not empty, so the fuel pays for reading it
    obtain ⟨fuel, rfl⟩ : ∃ before, fuel = before + 1 := ⟨fuel - 1, by omega⟩
    have hrest : readStatementsWithin fuel lines.flatten = some statements := ih (by omega)
    have hread := hline.read lines.flatten
    rw [List.flatten_cons]
    rw [hcons, List.cons_append] at hread ⊢
    unfold readStatementsWithin
    rw [skipSpaces_cons hc.isSpace_eq_false]
    split
    case h_1 heq => cases heq
    case h_2 heq => exact absurd (List.cons.inj heq).1 (hc.ne (by decide) rfl)
    case h_3 =>
      have hline? : newline? (c :: (tail ++ lines.flatten)) = none := by
        rw [newline?]
        · exact fun _ heq => hc.ne (by decide) rfl (List.cons.inj heq).1
        · exact fun _ heq => hc.ne (by decide) rfl (List.cons.inj heq).1
      rw [hline?, hread]
      show (readStatementsWithin fuel lines.flatten >>= _) = _
      rw [hrest]
      rfl

theorem readStatements_flatten {lines : List (List Char)} {statements : List Statement}
    (h : List.Forall₂ IsLine lines statements) : readStatements lines.flatten = some statements := by
  have hmark : lines.flatten.head? ≠ some '\ufeff' := by
    cases h with
    | nil => decide
    | cons hline =>
      obtain ⟨c, tail, hcons, hc⟩ := hline.first
      rw [List.flatten_cons, hcons]
      exact fun heq => hc.ne (by decide) rfl (Option.some.inj heq)
  unfold readStatements
  rw [if_neg hmark]
  exact readStatementsWithin_flatten h (Nat.le_refl _)

end Grove.Toml
