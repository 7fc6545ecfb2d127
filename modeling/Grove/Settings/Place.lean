import Grove.Toml.Number

/-!
# `Grove.Settings.Place` — where a setting stands

Settings stand in tables and lists, which nest. A place is the way to one of them: a key of the outermost table,
then keys after dots and positions in brackets, as in `render.indent` or `styles[0].lead`. A position below zero
counts from the end of the list. A text that cannot be read as a place is a key of the outermost table as a whole.
-/

namespace Grove

/-- A step into a table or into a list. -/
inductive Place.Step where
  | key (name : String)
  | position (index : Int)
deriving DecidableEq, Repr

/-- The way to a setting, from a key of the outermost table. -/
structure Place where
  top : String
  steps : List Place.Step
deriving DecidableEq, Repr

namespace Place

/-- The characters of a key, which are those of ASCII words and the space. -/
def isKeyChar (c : Char) : Bool :=
  c.isAlphanum || c == '_' || c == '-' || c == ' '

/-- A key has at least one character. -/
def key? (text : List Char) : Option String :=
  if text.isEmpty || !text.all isKeyChar then none else some (String.ofList text)

/-- A position is an integer of 64 bits with sign, in decimal digits and with a minus before them or not. Spaces
    and tabs may stand around it. -/
def position? (text : List Char) : Option Int :=
  let trimmed := (Toml.skipSpaces (Toml.skipSpaces text).reverse).reverse
  let (negative, digits) :=
    match trimmed with
    | '-' :: digits => (true, digits)
    | digits => (false, digits)
  if digits.isEmpty || !digits.all Char.isDigit then
    none
  else
    let n : Int := Toml.numeral 10 digits
    Toml.word? (if negative then -n else n)

/-- A text cut before each dot and each opening bracket: what comes before the first of them, and the pieces that
    begin with one. Neither occurs within a key or a position, so every piece is one step. -/
def cut : List Char → List Char × List (List Char)
  | [] => ([], [])
  | c :: rest =>
    let (piece, pieces) := cut rest
    if c == '.' || c == '[' then ([], (c :: piece) :: pieces) else (c :: piece, pieces)

def step? : List Char → Option Step
  | '.' :: name => (key? name).map .key
  | '[' :: rest =>
    if rest.getLast? = some ']' then (position? rest.dropLast).map .position else none
  | _ => none

/-- The place that a text names, if it names one. -/
def ofText? (text : String) : Option Place := do
  let (top, pieces) := cut text.toList
  return ⟨← key? top, ← pieces.mapM step?⟩

/-- The place of the setting that is written like this. -/
def ofText (text : String) : Place :=
  (ofText? text).getD ⟨text, []⟩

/-- The steps of the way, the first of them into the outermost table. -/
def path (p : Place) : List Step :=
  .key p.top :: p.steps

end Place

end Grove
