import Grove.Toml.Value

/-!
# `Grove.Toml.Quoted` — strings in TOML

TOML writes a string in one of four forms. The *basic* form, between double quotes, has escapes; the *literal*
form, between single quotes, has none and so cannot hold a single quote. Both have a form over several lines,
between three quotes, in which line feeds and quotes may stand, and in which a line end right after the opening
quotes does not count.

## Contents
- `readString` reads any of the four forms.
- `writeString` chooses the plainest form that can hold a text: basic if nothing needs an escape, else literal
  if that can hold it, else a form over several lines, and escapes last of all.
-/

namespace Grove.Toml

/-! ## Reading -/

/-- The value of a hexadecimal digit. -/
def hexDigit? (c : Char) : Option Nat :=
  if '0' ≤ c && c ≤ '9' then some (c.toNat - '0'.toNat)
  else if 'a' ≤ c && c ≤ 'f' then some (c.toNat - 'a'.toNat + 10)
  else if 'A' ≤ c && c ≤ 'F' then some (c.toNat - 'A'.toNat + 10)
  else none

/-- The character whose code point the digits spell, unless it is a surrogate or out of range. -/
def scalar? (digits : List Char) : Option Char := do
  let code ← digits.foldlM (fun acc c => (hexDigit? c).map (16 * acc + ·)) 0
  if code < 0xD800 || (0xDFFF < code && code < 0x110000) then some (Char.ofNat code) else none

/-- What a backslash and one more character stand for. -/
def shortEscape? : Char → Option Char
  | 'b' => some '\x08'
  | 't' => some '\t'
  | 'n' => some '\n'
  | 'f' => some '\x0c'
  | 'r' => some '\r'
  | '"' => some '"'
  | '\\' => some '\\'
  | _ => none

/-- The characters that stand for themselves in a string: all but the controls, of which the tab is let in. -/
def isStringChar (c : Char) : Bool :=
  isCommentChar c

/-- Put a character before what was read. -/
def prepend (c : Char) : Option (List Char × List Char) → Option (List Char × List Char)
  | some (s, rest) => some (c :: s, rest)
  | none => none

/-- The rest of a basic string, after the opening quote. -/
def readBasic : Reader (List Char)
  | [] => none
  | '"' :: rest => some ([], rest)
  | '\\' :: 'u' :: a :: b :: c :: d :: rest => do
    prepend (← scalar? [a, b, c, d]) (readBasic rest)
  | '\\' :: 'U' :: a :: b :: c :: d :: e :: f :: g :: h :: rest => do
    prepend (← scalar? [a, b, c, d, e, f, g, h]) (readBasic rest)
  | '\\' :: c :: rest => do prepend (← shortEscape? c) (readBasic rest)
  | c :: rest => if isStringChar c && c != '\\' then prepend c (readBasic rest) else none

/-- The rest of a literal string, after the opening quote. -/
def readLiteral : Reader (List Char)
  | [] => none
  | '\'' :: rest => some ([], rest)
  | c :: rest => if isStringChar c then prepend c (readLiteral rest) else none

/-- Whether nothing but spaces comes before the next line end. -/
def endsLine (s : List Char) : Bool :=
  (newline? (skipSpaces s)).isSome

/-- The rest of a basic string over several lines. A backslash at the end of a line drops the line end and all
    spaces and line ends that follow; `skipping` says that this is going on. Up to two quotes may stand right
    before the closing three. -/
def readMultiBasic : Bool → Reader (List Char)
  | _, [] => none
  | _, '"' :: '"' :: '"' :: '"' :: '"' :: rest => some (['"', '"'], rest)
  | _, '"' :: '"' :: '"' :: '"' :: rest => some (['"'], rest)
  | _, '"' :: '"' :: '"' :: rest => some ([], rest)
  | _, '\\' :: 'u' :: a :: b :: c :: d :: rest => do
    prepend (← scalar? [a, b, c, d]) (readMultiBasic false rest)
  | _, '\\' :: 'U' :: a :: b :: c :: d :: e :: f :: g :: h :: rest => do
    prepend (← scalar? [a, b, c, d, e, f, g, h]) (readMultiBasic false rest)
  | _, '\\' :: c :: rest =>
    if endsLine (c :: rest) then
      readMultiBasic true (c :: rest)
    else do
      prepend (← shortEscape? c) (readMultiBasic false rest)
  | skipping, '\r' :: '\n' :: rest =>
    if skipping then readMultiBasic true rest else prepend '\n' (readMultiBasic false rest)
  | skipping, c :: rest =>
    if skipping && (isSpace c || c == '\n') then
      readMultiBasic true rest
    else if c == '\n' || (isStringChar c && c != '\\') then
      prepend c (readMultiBasic false rest)
    else
      none

/-- The rest of a literal string over several lines. -/
def readMultiLiteral : Reader (List Char)
  | [] => none
  | '\'' :: '\'' :: '\'' :: '\'' :: '\'' :: rest => some (['\'', '\''], rest)
  | '\'' :: '\'' :: '\'' :: '\'' :: rest => some (['\''], rest)
  | '\'' :: '\'' :: '\'' :: rest => some ([], rest)
  | '\r' :: '\n' :: rest => prepend '\n' (readMultiLiteral rest)
  | c :: rest => if c == '\n' || isStringChar c then prepend c (readMultiLiteral rest) else none

/-- Read a string in any of its forms. -/
def readString : Reader String := fun s => do
  let (text, rest) ←
    match s with
    | '"' :: '"' :: '"' :: rest => readMultiBasic false ((newline? rest).getD rest)
    | '"' :: rest => readBasic rest
    | '\'' :: '\'' :: '\'' :: rest => readMultiLiteral ((newline? rest).getD rest)
    | '\'' :: rest => readLiteral rest
    | _ => none
  return (String.ofList text, rest)

/-! ## Writing -/

/-- The four forms of a string. -/
inductive QuoteForm where
  | basic
  | literal
  | multiBasic
  | multiLiteral
deriving DecidableEq, Repr

/-- The control characters that no form can hold as they are: all but the tab and the line feed. -/
def needsCode (c : Char) : Bool :=
  (c < ' ' && c != '\t' && c != '\n') || c == '\x7f'

/-- The length of the longest run of `q` in a text, given the lengths of the run before it and of the longest
    one so far. -/
def longestRun (q : Char) : Nat → Nat → List Char → Nat
  | _, longest, [] => longest
  | run, longest, c :: rest =>
    if c = q then longestRun q (run + 1) (max longest (run + 1)) rest else longestRun q 0 longest rest

/-- The plainest form that can hold a text. -/
def quoteForm (s : List Char) : QuoteForm :=
  let backslash := s.contains '\\'
  let coded := s.any needsCode
  let broken := s.contains '\n'
  let singles := longestRun '\'' 0 0 s
  let doubles := longestRun '"' 0 0 s
  if !backslash && !coded && doubles = 0 && !broken then .basic
  else if !coded && singles = 0 && !broken then .literal
  else if !backslash && !coded && doubles ≤ 2 then .multiBasic
  else if !coded && singles ≤ 2 then .multiLiteral
  else if broken then .multiBasic
  else .basic

/-- A hexadecimal digit. -/
def hexDigit (n : Nat) : Char :=
  if n < 10 then Char.ofNat ('0'.toNat + n) else Char.ofNat ('A'.toNat + n - 10)

/-- A control character by its code. -/
def codeEscape (c : Char) : List Char :=
  ['\\', 'u', '0', '0', hexDigit (c.toNat / 16), hexDigit (c.toNat % 16)]

/-- The inside of a string in one of the basic forms. On one line each double quote is escaped; over several
    lines every third of a run is, `run` being the number of quotes right before. -/
def escape (multi : Bool) : Nat → List Char → List Char
  | _, [] => []
  | run, '"' :: rest =>
    if !multi || run = 2 then '\\' :: '"' :: escape multi 0 rest else '"' :: escape multi (run + 1) rest
  | _, '\n' :: rest => if multi then '\n' :: escape multi 0 rest else '\\' :: 'n' :: escape multi 0 rest
  | _, '\x08' :: rest => '\\' :: 'b' :: escape multi 0 rest
  | _, '\t' :: rest => '\\' :: 't' :: escape multi 0 rest
  | _, '\x0c' :: rest => '\\' :: 'f' :: escape multi 0 rest
  | _, '\r' :: rest => '\\' :: 'r' :: escape multi 0 rest
  | _, '\\' :: rest => '\\' :: '\\' :: escape multi 0 rest
  | _, c :: rest => (if needsCode c then codeEscape c else [c]) ++ escape multi 0 rest

/-- A text in the given form. In the forms over several lines a line end, which will not count, is put first
    if the text has any. -/
def writeAs (s : List Char) : QuoteForm → List Char
  | .basic => '"' :: escape false 0 s ++ ['"']
  | .literal => '\'' :: s ++ ['\'']
  | .multiBasic => ['"', '"', '"'] ++ opening ++ escape true 0 s ++ ['"', '"', '"']
  | .multiLiteral => ['\'', '\'', '\''] ++ opening ++ s ++ ['\'', '\'', '\'']
where
  opening : List Char := if s.contains '\n' then ['\n'] else []

/-- Write a string in the plainest form that can hold it. -/
def writeString (text : String) : String :=
  String.ofList (writeAs text.toList (quoteForm text.toList))

end Grove.Toml
