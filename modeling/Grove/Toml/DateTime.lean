import Grove.Toml.Number

/-!
# `Grove.Toml.DateTime` — dates and times in TOML

A date, a time of day, or both with a `T` or a space between them and perhaps an offset from UTC. Only days that
exist are dates, and a minute may have a leap second.
-/

namespace Grove.Toml

/-- Exactly `count` decimal digits, as a number. -/
def readCount (count : Nat) : Reader Nat := fun s =>
  let ds := s.take count
  if ds.length = count && ds.all (isDigit 10) then some (numeral 10 ds, s.drop count) else none

/-- Exactly `count` decimal digits that spell a number from `first` to `last`. -/
def readBounded (count first last : Nat) : Reader Nat := fun s => do
  let (n, rest) ← readCount count s
  if first ≤ n && n ≤ last then some (n, rest) else none

/-- What follows the given character, if it comes first. -/
def after? (c : Char) : List Char → Option (List Char)
  | d :: rest => if c = d then some rest else none
  | [] => none

def isLeapYear (year : Nat) : Bool :=
  year % 4 == 0 && (year % 100 != 0 || year % 400 == 0)

/-- The number of days in a month. -/
def daysIn (year month : Nat) : Nat :=
  if month = 2 then (if isLeapYear year then 29 else 28)
  else if month = 4 || month = 6 || month = 9 || month = 11 then 30
  else 31

/-- The text after a date. -/
def skipDate (s : List Char) : Option (List Char) := do
  let (year, rest) ← readCount 4 s
  let rest ← after? '-' rest
  let (month, rest) ← readBounded 2 1 12 rest
  let rest ← after? '-' rest
  let (_, rest) ← readBounded 2 1 (daysIn year month) rest
  return rest

/-- The text after the digits of a fraction of a second, if there is one. -/
def skipFraction : List Char → List Char
  | '.' :: d :: rest => if isDigit 10 d then rest.dropWhile (isDigit 10) else '.' :: d :: rest
  | s => s

/-- The text after a time of day. -/
def skipTime (s : List Char) : Option (List Char) := do
  let (_, rest) ← readBounded 2 0 23 s
  let rest ← after? ':' rest
  let (_, rest) ← readBounded 2 0 59 rest
  let rest ← after? ':' rest
  let (_, rest) ← readBounded 2 0 60 rest
  return skipFraction rest

/-- The text after an offset from UTC, if there is one. -/
def skipOffset (s : List Char) : Option (List Char) :=
  match s with
  | 'Z' :: rest | 'z' :: rest => some rest
  | '+' :: rest | '-' :: rest => do
    let (_, rest) ← readBounded 2 0 23 rest
    let rest ← after? ':' rest
    let (_, rest) ← readBounded 2 0 59 rest
    return rest
  | _ => some s

/-- The text after a time of day that follows a date, or the text itself if none does. -/
def skipTimeOfDate (s : List Char) : Option (List Char) :=
  match s with
  | [] => some s
  | c :: rest =>
    if c == 'T' || c == 't' || c == ' ' then
      match skipTime rest with
      | some rest => skipOffset rest
      | none => some s
    else
      some s

/-- Read a date, a time or both. -/
def readDateTime : Reader String := fun s => do
  let rest ← ((skipDate s).bind skipTimeOfDate) <|> skipTime s
  return (String.ofList (s.take (s.length - rest.length)), rest)

end Grove.Toml
