import Grove.Toml.Value

/-!
# `Grove.Toml.Table` — tables defined piece by piece

The parts of a table may stand apart in a document, but no part may be defined twice. So while a document is
read each table carries how it came about:

* a table with a header of its own is *explicit* and is complete once its section ends;
* a table that was only passed through, on the way to another, is *implicit* and may still get a header, or more
  parts;
* a table that was passed through by a dotted key is *dotted* besides, and may get more parts by dotted keys only.

An array of tables gets its elements one header at a time, and stands for its last element wherever a header or a
dotted key passes through it.

## Contents
- `descend` follows a path of keys, making implicit tables on the way.
- `assign`, `defineTable` and `defineElement` are what a key with a value and the two kinds of header do.
-/

namespace Grove.Toml

/-- What stands under a key of a table that is being read. -/
inductive Entry where
  | value (v : Value)
  | table (implicit dotted : Bool) (entries : List (String × Entry))
  /-- An array of tables; the last one may still grow. -/
  | tables (elements : List (List (String × Entry)))

/-- The entries of a table that is being read, each key at most once. -/
abbrev Entries := List (String × Entry)

/-- Put `e` under a key that is there already. -/
def replaceEntry (key : String) (e : Entry) : Entries → Entries
  | [] => []
  | (k, old) :: rest => if k = key then (k, e) :: rest else (k, old) :: replaceEntry key e rest

/-- Follow a path of keys from a table and put `change` of the table found there in its place; `change` is told
    whether that table is dotted. The keys belong to a dotted key or to a header: a dotted key may not pass
    through an explicit table. -/
def descend (dotted : Bool) (change : Bool → Entries → Option Entries) :
    List String → Bool → Entries → Option Entries
  | [], atDotted, entries => change atDotted entries
  | key :: path, _, entries =>
    match entries.lookup key with
    | none => do
      let below ← descend dotted change path dotted []
      return entries ++ [(key, .table true dotted below)]
    | some (.value _) => none
    | some (.table implicit d below) =>
      if dotted && !implicit then none
      else do
        let below ← descend dotted change path d below
        return replaceEntry key (.table implicit d below) entries
    | some (.tables elements) =>
      match elements.getLast? with
      | none => none
      | some last => do
        let last ← descend dotted change path false last
        return replaceEntry key (.tables (elements.dropLast ++ [last])) entries

/-- Split the last key from a path. -/
def splitLast? : List String → Option (List String × String)
  | [] => none
  | [key] => some ([], key)
  | key :: rest => (splitLast? rest).map fun (path, last) => (key :: path, last)

/-- Give a value to a key, dotted or not. A dotted key defines parts of dotted tables only, a plain key of other
    tables only, and nothing may be under it yet. -/
def assign (key : List String) (v : Value) (entries : Entries) : Option Entries := do
  let (path, last) ← splitLast? key
  descend true
    (fun atDotted entries =>
      if atDotted = path.isEmpty then none
      else if (entries.lookup last).isSome then none
      else some (entries ++ [(last, .value v)]))
    path false entries

/-- Give values to keys, one after the other. -/
def assignAll (pairs : List (List String × Value)) (entries : Entries) : Option Entries :=
  pairs.foldlM (fun entries (key, v) => assign key v entries) entries

/-- Add the section of a table with a header. An implicit table that is not dotted keeps what it has; any other
    definition under the name is in the way. -/
def defineTable (header : List String) (pairs : List (List String × Value)) (entries : Entries) :
    Option Entries := do
  let (path, last) ← splitLast? header
  descend false
    (fun _ entries =>
      match entries.lookup last with
      | none => do return entries ++ [(last, .table false false (← assignAll pairs []))]
      | some (.table true false below) => do
        return replaceEntry last (.table false false (← assignAll pairs below)) entries
      | some _ => none)
    path false entries

/-- Add the section of an element of an array of tables. -/
def defineElement (header : List String) (pairs : List (List String × Value)) (entries : Entries) :
    Option Entries := do
  let (path, last) ← splitLast? header
  descend false
    (fun _ entries =>
      match entries.lookup last with
      | none => do return entries ++ [(last, .tables [← assignAll pairs []])]
      | some (.tables elements) => do
        return replaceEntry last (.tables (elements ++ [← assignAll pairs []])) entries
      | some _ => none)
    path false entries

/-! ## The finished table -/

mutual

def Entry.toValue : Entry → Value
  | .value v => v
  | .table _ _ entries => .table (entryValues entries)
  | .tables elements => .array (elementValues elements)

def entryValues : List (String × Entry) → List (String × Value)
  | [] => []
  | (key, e) :: rest => (key, e.toValue) :: entryValues rest

def elementValues : List (List (String × Entry)) → List Value
  | [] => []
  | entries :: rest => .table (entryValues entries) :: elementValues rest

end

end Grove.Toml
