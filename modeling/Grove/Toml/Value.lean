/-!
# `Grove.Toml.Value` — what a TOML document holds

A document is a table; tables, arrays and single values nest. Floats and dates are kept as they are written,
since nothing here calculates with them.
-/

namespace Grove.Toml

/-- A TOML value. The entries of a table are in the order in which their keys came up. -/
inductive Value where
  | string (text : String)
  | integer (number : Int)
  | float (literal : String)
  | boolean (truth : Bool)
  | dateTime (literal : String)
  | array (elements : List Value)
  | table (entries : List (String × Value))

/-- A reader of the front of a text: what it found and what is left, or nothing if the text does not begin so. -/
abbrev Reader (β : Type) := List Char → Option (β × List Char)

/-- The space and the tab, which may stand between any two parts of a line. -/
def isSpace (c : Char) : Bool :=
  c == ' ' || c == '\t'

def skipSpaces (s : List Char) : List Char :=
  s.dropWhile isSpace

/-- The text after a line end, which is a line feed or a carriage return and a line feed. -/
def newline? : List Char → Option (List Char)
  | '\n' :: rest => some rest
  | '\r' :: '\n' :: rest => some rest
  | _ => none

/-- The characters a comment may hold: all but the controls, of which the tab is let in. -/
def isCommentChar (c : Char) : Bool :=
  c == '\t' || (' ' ≤ c && c ≤ '~') || '\x7f' < c

end Grove.Toml
