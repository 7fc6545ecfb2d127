import Grove.CommandLine.Completion
import Grove.CommandLine.Grammar
import Grove.Outline.Inspection
import Grove.Settings.Basic

/-!
# `Grove.CommandLine.Invocation` — what a command line asks for

The command of this program and its subcommands, and the typed form of what was found on a line.
-/

namespace Grove

open CommandLine

/-- What to do. -/
inductive Task where
  | render (file : String) (style : Option RenderStyle)
  | walk (file : String) (order : TraversalOrder)
  | path (file start stop : String)
  | stats (file : String)
  | configShow
  | configTemplate
  | completion (shell : Shell)
deriving DecidableEq, Repr

/-- The file that a task is about. -/
def Task.file? : Task → Option String
  | .render file _ | .walk file _ | .path file _ _ | .stats file => some file
  | .configShow | .configTemplate | .completion _ => none

/-- A command line: how much to tell about the run, whether to tell about the program, the directory with the
    local settings, and what to do. -/
structure Invocation where
  debug : Nat
  info : Bool
  configDir : Option String
  task : Option Task
deriving DecidableEq, Repr

namespace Invocation

/-! ## The grammar -/

/-- The traversal orders by name; the first is the one to take where none is given. -/
def orders : List (String × TraversalOrder) :=
  [("preorder", .preorder), ("postorder", .postorder), ("breadth-first", .breadthFirst)]

def styles : List String :=
  [RenderStyle.outline.name, RenderStyle.tree.name]

/-- The options that every command takes. -/
def everywhere : List Flag :=
  [⟨"debug", some 'd', .count⟩, ⟨"config-dir", some 'C', .take .path⟩, ⟨"help", some 'h', .help⟩,
   ⟨"version", some 'V', .version⟩]

/-- A command that works on an outline file. -/
def onFile (name : String) (options : List Flag) (required : List String) : Command :=
  .mk name (options ++ everywhere) required [⟨"file", .path⟩] [] false

/-- The subcommand that asks for help. -/
def helpCommand : Command :=
  .mk helpWord [] [] [] [] false

/-- The whole grammar. -/
def grammar : Command :=
  .mk "arbor" (⟨"info", none, .raise⟩ :: everywhere) [] []
    [onFile "render" [⟨"style", none, .take (.oneOf styles)⟩] [],
     onFile "walk" [⟨"order", none, .take (.oneOf (orders.map (·.1)))⟩] [],
     onFile "path" [⟨"from", none, .take .anyText⟩, ⟨"to", none, .take .anyText⟩] ["from", "to"],
     onFile "stats" [] [],
     .mk "config" everywhere [] []
       [.mk "show" everywhere [] [] [] false, .mk "template" everywhere [] [] [] false, helpCommand] true,
     .mk "completion" everywhere [] [⟨"shell", .oneOf (Shell.all.map Shell.name)⟩] [] false,
     helpCommand]
    false

/-! ## The typed form -/

/-- The most that can be told about a run. -/
def maxDebug : Nat := 255

/-- How often `debug` is given, at the innermost command where it is given at all. -/
def debugOf (found : List (String × Matches)) : Nat :=
  let counts := found.map fun (_, m) => m.counted.count "debug"
  min maxDebug ((counts.reverse.find? (0 < ·)).getD 0)

/-- The directory with the local settings, from the innermost command where it is given. -/
def configDirOf (found : List (String × Matches)) : Option String :=
  found.reverse.findSome? fun (_, m) => m.values.lookup "config-dir"

/-- What the subcommands and their arguments ask for. -/
def taskOf : List (String × Matches) → Option Task
  | [(_, _), ("render", m)] => do
    return .render (← m.values.lookup "file") ((m.values.lookup "style").bind RenderStyle.ofName?)
  | [(_, _), ("walk", m)] => do
    return .walk (← m.values.lookup "file")
      (((m.values.lookup "order").bind fun name => orders.lookup name).getD .preorder)
  | [(_, _), ("path", m)] => do
    return .path (← m.values.lookup "file") (← m.values.lookup "from") (← m.values.lookup "to")
  | [(_, _), ("stats", m)] => do return .stats (← m.values.lookup "file")
  | [(_, _), ("config", _), ("show", _)] => some .configShow
  | [(_, _), ("config", _), ("template", _)] => some .configTemplate
  | [(_, _), ("completion", m)] => ((m.values.lookup "shell").bind Shell.ofName?).map .completion
  | _ => none

/-- Read a command line, without the name of the program. -/
def read (words : List String) : Except Usage Invocation := do
  let found ← grammar.read words
  return {
    debug := debugOf found
    info := found.any fun (_, m) => m.raised.contains "info"
    configDir := configDirOf found
    task := taskOf found }

end Invocation

end Grove
