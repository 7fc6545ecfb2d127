import Grove.Toml.Value

/-!
# `Grove.Toml.Number` — integers and floats in TOML

Decimal integers have no leading zeros and may have a sign; the prefixes `0x`, `0o` and `0b` give other bases
and exclude one. An underscore may stand between two digits. An integer has to fit into 64 bits with sign, and a
float may not be so large that it would become infinite.
-/

namespace Grove.Toml

/-! ## Digits -/

/-- The value of a digit, if it is one in the given base. -/
def digit? (base : Nat) (c : Char) : Option Nat :=
  let value :=
    if '0' ≤ c && c ≤ '9' then c.toNat - '0'.toNat
    else if 'a' ≤ c && c ≤ 'f' then c.toNat - 'a'.toNat + 10
    else if 'A' ≤ c && c ≤ 'F' then c.toNat - 'A'.toNat + 10
    else base
  if value < base then some value else none

def isDigit (base : Nat) (c : Char) : Bool :=
  (digit? base c).isSome

/-- Digits with single underscores between them, continuing after a digit; the underscores are left out. -/
def moreDigits (base : Nat) : List Char → List Char × List Char
  | [] => ([], [])
  | '_' :: d :: rest =>
    if isDigit base d then
      let (ds, rest) := moreDigits base rest
      (d :: ds, rest)
    else
      ([], '_' :: d :: rest)
  | d :: rest =>
    if isDigit base d then
      let (ds, rest) := moreDigits base rest
      (d :: ds, rest)
    else
      ([], d :: rest)

/-- One digit or more, with single underscores between them. -/
def readDigits (base : Nat) : Reader (List Char)
  | d :: rest =>
    if isDigit base d then
      let (ds, rest) := moreDigits base rest
      some (d :: ds, rest)
    else
      none
  | [] => none

/-- The number that digits spell in the given base. -/
def numeral (base : Nat) (ds : List Char) : Nat :=
  ds.foldl (fun acc c => base * acc + (digit? base c).getD 0) 0

/-- Whether a sign comes first, and what follows it: true for a minus. -/
def readSign : List Char → Bool × List Char
  | '+' :: rest => (false, rest)
  | '-' :: rest => (true, rest)
  | s => (false, s)

/-- Decimal digits without a leading zero, or a single zero. -/
def readDecimal : Reader (List Char)
  | '0' :: rest => some (['0'], rest)
  | s => readDigits 10 s

/-! ## Integers -/

/-- The number, if it fits into 64 bits with sign. -/
def word? (n : Int) : Option Int :=
  if -9223372036854775808 ≤ n && n ≤ 9223372036854775807 then some n else none

def readInteger : Reader Int := fun s => do
  let based (base : Nat) (rest : List Char) : Option (Int × List Char) := do
    let (ds, rest) ← readDigits base rest
    return (← word? (numeral base ds), rest)
  match s with
  | '0' :: 'x' :: rest => based 16 rest
  | '0' :: 'o' :: rest => based 8 rest
  | '0' :: 'b' :: rest => based 2 rest
  | _ =>
    let (negative, rest) := readSign s
    let (ds, rest) ← readDecimal rest
    let n : Int := numeral 10 ds
    return (← word? (if negative then -n else n), rest)

/-! ## Floats -/

/-- The least number that is rounded to infinity: halfway between the largest float and the next power of two. -/
def infinityBound : Nat :=
  Nat.pow 2 1024 - Nat.pow 2 970

/-- Whether the number with the given digits, times ten to the power of `exponent`, is rounded to infinity. The
    number of digits decides unless it is near that of the bound. -/
def roundsToInfinity (ds : List Char) (exponent : Int) : Bool :=
  let ds := ds.dropWhile (· == '0')
  let places := ds.length + exponent
  if ds.isEmpty || places < 300 then false
  else if 320 < places then true
  else if exponent < 0 then infinityBound * Nat.pow 10 exponent.natAbs ≤ numeral 10 ds
  else infinityBound ≤ numeral 10 ds * Nat.pow 10 exponent.natAbs

/-- The exponent of a float, after the `e`. -/
def readExponent : Reader Int := fun s => do
  let (negative, rest) := readSign s
  let (ds, rest) ← readDigits 10 rest
  let n : Int := numeral 10 ds
  return (if negative then -n else n, rest)

/-- Read an exponent if there is one; without one it is 0. -/
def readExponent? : Reader Int
  | 'e' :: rest => readExponent rest
  | 'E' :: rest => readExponent rest
  | s => some (0, s)

/-- A float; it differs from an integer by a fraction, an exponent or both, or is one of `inf` and `nan`. -/
def readFloat : Reader String := fun s => do
  let (negative, unsigned) := readSign s
  let literal (rest : List Char) : String := String.ofList (s.take (s.length - rest.length))
  match unsigned with
  | 'i' :: 'n' :: 'f' :: rest => return (literal rest, rest)
  | 'n' :: 'a' :: 'n' :: rest => return (literal rest, rest)
  | _ =>
    let (whole, rest) ← readDecimal unsigned
    let (fraction, exponent, rest) ←
      match rest with
      | '.' :: rest => do
        let (fraction, rest) ← readDigits 10 rest
        let (exponent, rest) ← readExponent? rest
        some (fraction, exponent, rest)
      | 'e' :: rest | 'E' :: rest => do
        let (exponent, rest) ← readExponent rest
        some ([], exponent, rest)
      | _ => none
    if !negative && roundsToInfinity (whole ++ fraction) (exponent - fraction.length) then
      none
    else
      return (literal rest, rest)

end Grove.Toml
