import Grove.Failure

/-!
# `Grove.Problem` — what can go wrong for a user

The failures of the forest, and those of the layers above it: outline texts, lookups by value, settings and
files. Each has a cause as data and is put into words here.
-/

namespace Grove

/-- What is wrong with a line of an outline. -/
inductive LineFault where
  /-- White space other than spaces stands where the value should begin. -/
  | notSpaces
  /-- The number of leading spaces is between two levels. -/
  | betweenLevels (width indent : Nat)
  /-- The line is more than one level below the line before it, which is on level `above`. -/
  | jump (level above : Nat)
deriving DecidableEq, Repr

namespace LineFault

def message : LineFault → String
  | notSpaces => "indentation must use spaces"
  | betweenLevels width indent => s!"indentation of {width} is not a multiple of {indent}"
  | jump level above => s!"jumps to level {level} below level {above}"

end LineFault

/-- What is wrong with the settings. -/
inductive SettingsFault where
  | unreadable (path reason : String)
  | unparsable (path : String)
  /-- The environment asks for a style that does not exist. -/
  | unknownStyle (name : String)
  | zeroIndent
  /-- An outline was to be read with no spaces per level. -/
  | zeroOutlineIndent
  /-- The indentation is too large to be written down. -/
  | indentTooLarge
deriving DecidableEq, Repr

namespace SettingsFault

def message : SettingsFault → String
  | unreadable path reason => s!"read {path}: {reason}"
  | unparsable path => s!"parse {path}: TOML parse error"
  | unknownStyle name => s!"ARBOR_RENDER__STYLE: invalid variant: {name}"
  | zeroIndent => "render.indent must be at least 1"
  | zeroOutlineIndent => "outline indent must be at least 1"
  | indentTooLarge => "serialize config: out-of-range value for u64 type"

end SettingsFault

/-- What can go wrong above the forest, and in it. -/
inductive Problem where
  | tree (error : TreeError)
  | breach (breach : Breach)
  /-- The outline is malformed at the line with this number. -/
  | outline (line : Nat) (fault : LineFault)
  /-- No node has this value. -/
  | valueNotFound (value : String)
  | settings (fault : SettingsFault)
  /-- The outline file could not be read. -/
  | unreadable (path : String)
deriving DecidableEq, Repr

namespace Problem

/-- A failure of the forest, seen from above. -/
def ofFailure : Failure → Problem
  | .tree error => tree error
  | .breach cause => breach cause

/-- The problem in words. A breach has none but those that are told about it. -/
def message : Problem → String
  | tree error => error.message
  | breach cause => cause.message?.getD ""
  | outline line fault => s!"outline line {line}: {fault.message}"
  | valueNotFound value => s!"no node with value: {value}"
  | settings fault => s!"config error: {fault.message}"
  | unreadable path => s!"operation failed: read outline: {path}"

end Problem

end Grove
