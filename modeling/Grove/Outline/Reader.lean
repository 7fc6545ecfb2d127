import Grove.Forest.Edit
import Grove.Problem
import Grove.Text.Blank
import Grove.Text.Lines
import Grove.Tree.Drawing

/-!
# `Grove.Outline.Reader` — forests from outlines

An outline holds one node per line that is not blank. The leading spaces of a line, divided by the style's
indentation, give its level; a line on level 0 begins a tree, and any other hangs from the closest line above
that is one level up. The value is what follows the spaces, without the style's lead if it is there. Nothing is
trimmed at the end of a line.

## Contents
- `Line.read` says what a single line means, given how many levels are open above it.
- `Progress.place` adds the node of a line to the forest built so far.
- `OutlineForest.parse` reads a whole text.
-/

namespace Grove

open Text

/-- A forest of strings, and the nodes that count as the roots of its outline, in order. -/
structure OutlineForest where
  forest : Forest String
  roots : List NodeId

namespace OutlineForest

def empty : OutlineForest where
  forest := .empty
  roots := []

instance : Inhabited OutlineForest := ⟨empty⟩

end OutlineForest

/-! ## Single lines -/

namespace Line

/-- The number of leading spaces. -/
def width (line : List Char) : Nat :=
  (line.takeWhile (· == ' ')).length

/-- The line without its leading spaces. -/
def body (line : List Char) : List Char :=
  line.dropWhile (· == ' ')

/-- `text` without `lead` in front, or as it is where `lead` is not there. -/
def stripLead (lead text : List Char) : List Char :=
  if lead.isPrefixOf text then text.drop lead.length else text

/-- The level and the value of a line below which `depth` levels are open, so that it may stand on any level
    up to `depth`. -/
def read (style : OutlineStyle) (depth : Nat) (line : List Char) : Except LineFault (Nat × String) :=
  if (body line).head?.any isBlank then
    .error .notSpaces
  else if width line % style.indent ≠ 0 then
    .error (.betweenLevels (width line) style.indent)
  else if depth < width line / style.indent then
    .error (.jump (width line / style.indent) (depth - 1))
  else
    .ok (width line / style.indent, String.ofList (stripLead style.lead.toList (body line)))

end Line

/-! ## Whole texts -/

/-- What has been built from the lines above: an outline forest, and the latest node on each level that is
    still open, from level 0 down. -/
structure Progress extends OutlineForest where
  trail : List NodeId

namespace Progress

/-- Nothing read yet. -/
def start : Progress where
  toOutlineForest := .empty
  trail := []

/-- Add a node on the given level: below the latest node of the level above, or as a root. Deeper levels are
    closed by it. -/
def place (level : Nat) (value : String) (s : Progress) : Except Failure Progress :=
  match Forest.create value s.forest with
  | .error failure _ => .error failure
  | .ok n F =>
    let trail := s.trail.take level
    match trail.getLast? with
    | none => .ok { forest := F, roots := s.roots ++ [n], trail := [n] }
    | some p =>
      match Forest.add p n F with
      | .error failure _ => .error failure
      | .ok _ F => .ok { forest := F, roots := s.roots, trail := trail ++ [n] }

/-- Read lines, the first of which has the given number. Blank lines are skipped but counted. -/
def readLines (style : OutlineStyle) : Nat → List (List Char) → Progress → Except Problem Progress
  | _, [], s => .ok s
  | number, line :: rest, s =>
    if line.all isBlank then
      readLines style (number + 1) rest s
    else
      match Line.read style s.trail.length line with
      | .error fault => .error (.outline number fault)
      | .ok (level, value) =>
        match s.place level value with
        | .error failure => .error (.ofFailure failure)
        | .ok s => readLines style (number + 1) rest s

end Progress

namespace OutlineForest

/-- Read an outline laid out in the given style. -/
def parse (style : OutlineStyle) (text : String) : Except Problem OutlineForest :=
  if style.indent = 0 then
    .error (.settings .zeroOutlineIndent)
  else
    match Progress.start.readLines style 1 (lines text.toList) with
    | .error problem => .error problem
    | .ok s => .ok s.toOutlineForest

end OutlineForest

end Grove
