import Grove.Toml.DateTime
import Grove.Toml.Quoted
import Grove.Toml.Table

/-!
# `Grove.Toml.Document` — reading TOML

A document is a sequence of lines that give a value to a key or begin the section of a table. It is read in two
steps: into statements, and from these into one table by the rules of `Grove.Toml.Table`. All that is asked of a
text that breaks a rule is that it be refused.

## Contents
- `readKey` and `readValue` read dotted keys and values. Arrays and inline tables nest, but not without limit.
- `readStatements` splits a text into statements.
- `readDocument` is the whole.
-/

namespace Grove.Toml

/-- One less than this many levels of arrays and inline tables may nest, and one less than this many keys may
    be joined by dots. -/
def nestingLimit : Nat := 80

/-! ## Space between parts -/

/-- Skip a comment, if there is one. -/
def skipComment : List Char → List Char
  | '#' :: rest => rest.dropWhile isCommentChar
  | s => s

/-- What follows the end of a line, or of the text, before which only spaces and a comment may stand. -/
def finishLine (s : List Char) : Option (List Char) :=
  match skipComment (skipSpaces s) with
  | [] => some []
  | s => newline? s

/-- Skip spaces, comments and line ends, in at most `fuel` steps. -/
def skipFiller : Nat → List Char → List Char
  | 0, s => s
  | fuel + 1, s =>
    match skipComment (skipSpaces s) with
    | [] => []
    | s' =>
      match newline? s' with
      | some rest => skipFiller fuel rest
      | none => s'

/-! ## Keys -/

/-- The characters of a key without quotes. -/
def isBareKeyChar (c : Char) : Bool :=
  ('A' ≤ c && c ≤ 'Z') || ('a' ≤ c && c ≤ 'z') || ('0' ≤ c && c ≤ '9') || c == '_' || c == '-'

/-- A key without dots: bare, or a string on one line. -/
def readSimpleKey : Reader String := fun s =>
  match s with
  | '"' :: rest => (readBasic rest).map fun (key, rest) => (String.ofList key, rest)
  | '\'' :: rest => (readLiteral rest).map fun (key, rest) => (String.ofList key, rest)
  | _ =>
    let key := s.takeWhile isBareKeyChar
    if key.isEmpty then none else some (String.ofList key, s.dropWhile isBareKeyChar)

/-- Keys joined by dots, at most `fuel` of them. Spaces may stand around each. -/
def readKeys : Nat → Reader (List String)
  | 0, _ => none
  | fuel + 1, s => do
    let (key, rest) ← readSimpleKey (skipSpaces s)
    match skipSpaces rest with
    | '.' :: rest => do
      let (keys, rest) ← readKeys fuel rest
      return (key :: keys, rest)
    | rest => return ([key], rest)

/-- A key, dotted or not. -/
def readKey : Reader (List String) :=
  readKeys (nestingLimit - 1)

/-! ## Values -/

/-- A value that holds no other. -/
def readScalar : Reader Value := fun s =>
  match s with
  | '"' :: _ | '\'' :: _ => (readString s).map fun (text, rest) => (.string text, rest)
  | 't' :: 'r' :: 'u' :: 'e' :: rest => some (.boolean true, rest)
  | 'f' :: 'a' :: 'l' :: 's' :: 'e' :: rest => some (.boolean false, rest)
  | _ =>
    (readDateTime s).map (fun (literal, rest) => (.dateTime literal, rest))
      <|> (readFloat s).map (fun (literal, rest) => (.float literal, rest))
      <|> (readInteger s).map (fun (n, rest) => (.integer n, rest))

/-- The rest of an array, after the opening bracket or a comma, at most `fuel` elements of it. A comma may
    stand before the closing bracket, though not alone. -/
def readElements (element : Reader Value) : Nat → Reader (List Value)
  | 0, _ => none
  | fuel + 1, s =>
    match skipFiller s.length s with
    | ']' :: rest => some ([], rest)
    | s => do
      let (v, rest) ← element s
      match skipFiller rest.length rest with
      | ',' :: rest => do
        let (vs, rest) ← readElements element fuel rest
        return (v :: vs, rest)
      | ']' :: rest => return ([v], rest)
      | _ => none

/-- One pair of an inline table, with the spaces around it. -/
def readPair (element : Reader Value) : Reader (List String × Value) := fun s => do
  let (key, rest) ← readKey s
  match rest with
  | '=' :: rest => do
    let (v, rest) ← element (skipSpaces rest)
    return ((key, v), skipSpaces rest)
  | _ => none

/-- The pairs of an inline table up to the closing brace, at most `fuel` of them. -/
def readPairs (element : Reader Value) : Nat → Reader (List (List String × Value))
  | 0, _ => none
  | fuel + 1, s => do
    let (pair, rest) ← readPair element s
    match rest with
    | ',' :: rest => do
      let (pairs, rest) ← readPairs element fuel rest
      return (pair :: pairs, rest)
    | '\x7d' :: rest => return ([pair], rest)
    | _ => none

/-- The rest of an inline table, after the opening brace. It stands on one line. -/
def readInlineTable (element : Reader Value) : Reader Value := fun s => do
  let (pairs, rest) ←
    match skipSpaces s with
    | '\x7d' :: rest => some ([], rest)
    | s => readPairs element s.length s
  return (.table (entryValues (← assignAll pairs [])), rest)

/-- A value with at most `depth` levels of arrays and inline tables. -/
def readValueWithin : Nat → Reader Value
  | 0, s => readScalar s
  | depth + 1, s =>
    match s with
    | '[' :: rest => do
      let (vs, rest) ← readElements (readValueWithin depth) (rest.length + 1) rest
      return (.array vs, rest)
    | '\x7b' :: rest => readInlineTable (readValueWithin depth) rest
    | _ => readScalar s

def readValue : Reader Value :=
  readValueWithin (nestingLimit - 1)

/-! ## Statements -/

/-- What a line of a document says. -/
inductive Statement where
  | pair (key : List String) (v : Value)
  | header (path : List String)
  | elementHeader (path : List String)

/-- A statement with the rest of its line. -/
def readStatement : Reader Statement := fun s =>
  match s with
  | '[' :: '[' :: rest => do
    let (path, rest) ← readKey rest
    match rest with
    | ']' :: ']' :: rest => return (.elementHeader path, ← finishLine rest)
    | _ => none
  | '[' :: rest => do
    let (path, rest) ← readKey rest
    match rest with
    | ']' :: rest => return (.header path, ← finishLine rest)
    | _ => none
  | _ => do
    let (key, rest) ← readKey s
    match rest with
    | '=' :: rest => do
      let (v, rest) ← readValue (skipSpaces rest)
      return (.pair key v, ← finishLine rest)
    | _ => none

/-- The statements of a text, at most `fuel` lines of it. -/
def readStatementsWithin : Nat → List Char → Option (List Statement)
  | 0, s => if s.isEmpty then some [] else none
  | fuel + 1, s =>
    match skipSpaces s with
    | [] => some []
    | '#' :: rest => do readStatementsWithin fuel (← finishLine ('#' :: rest))
    | s =>
      match newline? s with
      | some rest => readStatementsWithin fuel rest
      | none => do
        let (statement, rest) ← readStatement s
        return statement :: (← readStatementsWithin fuel rest)

/-- The statements of a text. A byte order mark may come first. -/
def readStatements (s : List Char) : Option (List Statement) :=
  let s := if s.head? = some '\ufeff' then s.tail else s
  readStatementsWithin s.length s

/-! ## The table of a document -/

/-- The pairs up to the next header, and the statements from there on. -/
def splitSection : List Statement → List (List String × Value) × List Statement
  | .pair key v :: rest =>
    let (pairs, rest) := splitSection rest
    ((key, v) :: pairs, rest)
  | rest => ([], rest)

/-- Add sections to a table, at most `fuel` of them. -/
def defineSections : Nat → List Statement → Entries → Option Entries
  | _, [], entries => some entries
  | 0, _ :: _, _ => none
  | fuel + 1, statement :: rest, entries =>
    let (pairs, rest) := splitSection rest
    match statement with
    | .pair .. => none
    | .header path => do defineSections fuel rest (← defineTable path pairs entries)
    | .elementHeader path => do defineSections fuel rest (← defineElement path pairs entries)

/-- The table that statements define together, if none of them stands in the way of another. -/
def buildTable (statements : List Statement) : Option (List (String × Value)) := do
  let (pairs, rest) := splitSection statements
  let entries ← assignAll pairs []
  return entryValues (← defineSections rest.length rest entries)

/-- Read a document. -/
def readDocument (text : String) : Option (List (String × Value)) := do
  buildTable (← readStatements text.toList)

end Grove.Toml
