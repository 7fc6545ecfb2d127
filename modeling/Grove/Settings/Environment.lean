import Grove.Host
import Grove.Settings.Basic
import Grove.Settings.Store

/-!
# `Grove.Settings.Environment` — settings in environment variables

A variable whose name begins with `ARBOR_` gives a setting. The rest of its name, in which two underscores stand
for a dot, is the setting's place in a settings file; case does not matter. Variables with other names are passed
over. So is a setting that means nothing here, but not before it was put at its place: a place that cannot be
reached ends the run.

Each place is given once, by the last variable for it, and the places come in the order of the host, which is any.
Apart from a place out of reach nothing can be wrong with an environment as a whole, all of whose variables are
texts.
-/

namespace Grove

/-- Read each pair of underscores as a dot. -/
def dotted : List Char → List Char
  | '_' :: '_' :: rest => '.' :: dotted rest
  | c :: rest => c :: dotted rest
  | [] => []

/-- A letter in lower case. Outside ASCII only the Kelvin sign counts, whose lower case is the letter k. -/
def lowerCase (c : Char) : Char :=
  if c = '\u212a' then 'k' else c.toLower

/-- The place of the setting that a variable of this name gives, as it is written. -/
def settingOfName? (name : String) : Option String :=
  let lower := name.toList.map lowerCase
  let start := "arbor_".toList
  if start.isPrefixOf lower then some (String.ofList (dotted (lower.drop start.length))) else none

/-- The settings that variables give: the place of each as it is written, and its value. Of several variables for
    one place the last counts. -/
def assignments : List (String × String) → List (String × String)
  | [] => []
  | (name, value) :: rest =>
    match settingOfName? name with
    | none => assignments rest
    | some place =>
      let later := assignments rest
      if later.any (·.1 = place) then later else (place, value) :: later

/-- The settings of the environment in the order in which they are put where they belong. -/
def Host.assignments (host : Host) : List (String × String) :=
  host.order.arrange (Grove.assignments host.environment)

/-- The settings of the environment where they belong, or the place that cannot be reached. -/
def Host.store (host : Host) : Except String Store :=
  Store.empty.putAll host.listLimit host.assignments

/-- A style is named in any case. -/
def RenderStyle.ofNameAnyCase? (text : String) : Option RenderStyle :=
  ofName? (String.ofList (text.toList.map Char.toLower))

/-- The largest indentation that can be given. -/
def maxIndent : Nat := 18446744073709551615

/-- A number in decimal digits, with a plus before them or not. -/
def numberOfText? (text : List Char) : Option Nat :=
  let digits :=
    match text with
    | '+' :: rest => rest
    | _ => text
  if digits.isEmpty || !digits.all Char.isDigit then
    none
  else
    let n := digits.foldl (fun acc c => 10 * acc + (c.toNat - '0'.toNat)) 0
    if n ≤ maxIndent then some n else none

/-- An indentation is a number, or a word for yes (1) or no (0) in any case. -/
def indentOfText? (text : String) : Option Nat :=
  match String.ofList (text.toList.map Char.toLower) with
  | "true" | "on" | "yes" => some 1
  | "false" | "off" | "no" => some 0
  | _ => numberOfText? text.toList

namespace Overlay

/-- The style that a text names, if one is given. One that does not exist is a fault. -/
def styleOfText : Option String → Except SettingsFault (Option RenderStyle)
  | none => .ok none
  | some text =>
    match RenderStyle.ofNameAnyCase? text with
    | some style => .ok (some style)
    | none => .error (.unknownStyle text)

/-- The settings of the section. An indentation that is none counts as not given. -/
def ofStore (store : Store) : Except SettingsFault Overlay := do
  let style ← styleOfText (store.setting? "style")
  return {
    style
    indent := (store.setting? "indent").bind indentOfText?
    lead := store.setting? "prefix" }

/-- The settings in the environment. -/
def ofEnvironment (host : Host) : Except Problem Overlay := do
  let store ← host.store.mapError fun place => .breach (.outOfReach place)
  (ofStore store).mapError .settings

end Overlay

end Grove
