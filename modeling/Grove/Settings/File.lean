import Grove.Settings.Basic
import Grove.Toml.Document

/-!
# `Grove.Settings.File` — settings in TOML

A settings file has a section `render` with any of `style`, `indent` and `prefix`. Keys that mean nothing here
are passed over, but what is there under these has to be of the right kind. An array does for the section too,
its elements being the three settings in this order.

## Contents
- `Overlay.ofDocument?` reads the settings out of a document, `Overlay.ofText?` out of a text.
- `Settings.toToml` writes a file that gives all three.
- `Settings.template` is a file to start from, with everything commented out.
-/

namespace Grove

open Toml

/-! ## Reading -/

/-- A style is named by a string, or by the only key of a table that has nothing under it. -/
def RenderStyle.ofValue? : Value → Option RenderStyle
  | .string text => ofName? text
  | .table [(key, .table [])] => ofName? key
  | .table [(key, .array [])] => ofName? key
  | _ => none

/-- An indentation is an integer that is not negative. -/
def indentOfValue? : Value → Option Nat
  | .integer (.ofNat n) => some n
  | _ => none

/-- A lead is a string. -/
def leadOfValue? : Value → Option String
  | .string text => some text
  | _ => none

namespace Overlay

/-- Read what is there, if anything is: absence is no fault, a value of the wrong kind is. -/
def optional {β : Type} (read : Value → Option β) : Option Value → Option (Option β)
  | none => some none
  | some v => (read v).map some

/-- The settings in a section. A date is passed over like a table of unknown keys. -/
def ofSection? : Value → Option Overlay
  | .table entries => do
    let style ← optional RenderStyle.ofValue? (entries.lookup "style")
    let indent ← optional indentOfValue? (entries.lookup "indent")
    let lead ← optional leadOfValue? (entries.lookup "prefix")
    return { style, indent, lead }
  | .array elements => do
    let style ← optional RenderStyle.ofValue? elements[0]?
    let indent ← optional indentOfValue? elements[1]?
    let lead ← optional leadOfValue? elements[2]?
    return { style, indent, lead }
  | .dateTime _ => some empty
  | _ => none

/-- The settings in a document. -/
def ofDocument? (document : List (String × Value)) : Option Overlay :=
  match document.lookup "render" with
  | none => some empty
  | some v => ofSection? v

/-- The settings in the text of a file. -/
def ofText? (text : String) : Option Overlay := do
  ofDocument? (← readDocument text)

end Overlay

/-! ## Writing -/

namespace Settings

/-- The largest integer that can be written. -/
def maxWritten : Nat := 9223372036854775807

/-- A file that gives all settings. -/
def toToml (s : Settings) : Except SettingsFault String :=
  if maxWritten < s.indent then
    .error .indentTooLarge
  else
    .ok ("[render]\nstyle = " ++ writeString s.style.name ++ "\nindent = " ++ toString s.indent
      ++ "\nprefix = " ++ writeString s.lead ++ "\n")

/-- A file that gives none, and tells which there are. -/
def template : String :=
  unlines [
    "# arbor configuration",
    "#",
    "# Locations (by precedence, lowest to highest):",
    "#   Global: ~/.config/arbor/arbor.toml",
    "#   Local:  ./.arbor.toml",
    "#   Env:    ARBOR_RENDER__STYLE, ARBOR_RENDER__INDENT, ARBOR_RENDER__PREFIX",
    "",
    "[render]",
    "# Output of `arbor render`: \"outline\" or \"tree\"",
    "# style = \"outline\"",
    "",
    "# Spaces per outline level (also used to read outline files)",
    "# indent = 2",
    "",
    "# Text written before each outline value",
    "# prefix = \"+- \""]

end Settings

end Grove
