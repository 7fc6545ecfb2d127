import Grove.Settings.Place

/-!
# `Grove.Settings.Store` — settings put where they belong

Settings are put at their places one after the other. The tables and lists on the way come into being, in place of
whatever else stands there, and a list grows as far as a position asks. So what is at a place, and whether there
is such a place at all, depends on what was put before: a position below zero counts from the end that the list
has by then, and nothing comes before the first element.

## Contents
- `Store.put` puts one setting, `Store.putAll` one after the other.
- `Store.setting?` looks up a setting of the section `render`.
-/

namespace Grove

/-- What stands at a place. A key that a table does not have is one under which nothing stands. -/
inductive Store where
  | nothing
  | text (value : String)
  | table (entries : String → Store)
  | list (elements : List Store)

namespace Store

/-- The outermost table before anything was put there. -/
def empty : Store :=
  table fun _ => nothing

/-! ## Looking -/

/-- What stands under a key, if this is a table. -/
def entry (s : Store) (name : String) : Store :=
  match s with
  | table entries => entries name
  | _ => nothing

/-- What stands in a row, if this is a list. -/
def elements : Store → List Store
  | list elements => elements
  | _ => []

def text? : Store → Option String
  | text value => some value
  | _ => none

/-- The text that stands under a key of the section. -/
def setting? (s : Store) (name : String) : Option String :=
  ((s.entry "render").entry name).text?

/-! ## Putting -/

/-- Which element a position means in a list of this length. There is none before the first, and a list does not
    grow beyond the limit. -/
def index? (limit length : Nat) (position : Int) : Option Nat :=
  let index := if position < 0 then length + position else position
  if 0 ≤ index ∧ index < limit then some index.toNat else none

/-- Change what stands under a key. What is no table becomes one. -/
def setEntry (s : Store) (name : String) (inner : Store) : Store :=
  table fun key => if key = name then inner else s.entry key

/-- Change an element. What is no list becomes one, and the list grows up to the element. -/
def setElement (s : Store) (i : Nat) (inner : Store) : Store :=
  list ((s.elements ++ List.replicate (i + 1 - s.elements.length) nothing).set i inner)

/-- Put a value at the end of a way. That fails at a position which means no element. -/
def put (limit : Nat) (value : String) : List Place.Step → Store → Option Store
  | [], _ => some (text value)
  | .key name :: rest, s => (put limit value rest (s.entry name)).map (s.setEntry name)
  | .position p :: rest, s =>
    (index? limit s.elements.length p).bind fun i =>
      (put limit value rest (s.elements.getD i nothing)).map (s.setElement i)

/-- Put values at places, each of which comes as it is written, or fail with the first that cannot be reached. -/
def putAll (limit : Nat) : List (String × String) → Store → Except String Store
  | [], s => .ok s
  | (place, value) :: rest, s =>
    match s.put limit value (Place.ofText place).path with
    | some s => putAll limit rest s
    | none => .error place

end Store

end Grove
