import Grove.CommandLine.Invocation
import Grove.ExitCode
import Grove.Settings.Load
import Grove.Text.Paint

/-!
# `Grove.CommandLine.Run` — carrying out a command line

A run writes to the standard output and to the error output, and ends with an exit code. What a task has to say
goes to the standard output in one piece at its end, so a run that fails has written nothing there.

Warnings and errors go to the error output. Two things more are written there, which are left out here: the log
lines that `debug` asks for, which tell the time, and the last words of a run that ends at a breach.

## Contents
- `Invocation.execute` carries out an invocation.
- `Program.run` is the whole program: reading the line, executing it and reporting how it went.
- `Program.paths` lists what the program may look at on the way.
-/

namespace Grove

open Text CommandLine

/-- What has been written so far. The notices are what stands on the error output apart from the log lines of tasks. -/
structure Output where
  stdout : String
  notices : String

namespace Output

def empty : Output where
  stdout := ""
  notices := ""

end Output

/-- Why an invocation failed. -/
inductive Fault where
  | problem (p : Problem)
  | noCommand
deriving DecidableEq, Repr

namespace Fault

def message : Fault → String
  | problem p => p.message
  | noCommand => "no command given, see `arbor --help`"

def exitCode : Fault → Nat
  | problem p => p.exitCode
  | noCommand => ExitCode.usage

/-- What the program says when it ends with a fault. At a breach it does not come to say anything. -/
def notice (colours : Bool) : Fault → String
  | problem (.breach _) => ""
  | fault => paint colours boldRed "error" ++ ": " ++ fault.message ++ "\n"

end Fault

/-- A computation that writes and may fail. -/
abbrev Job := EStateM Fault Output

namespace Job

variable {β : Type}

def print (text : String) : Job Unit :=
  modify fun out => { out with stdout := out.stdout ++ text }

def warn (text : String) : Job Unit :=
  modify fun out => { out with notices := out.notices ++ text }

/-- Go on with the answer, or fail. -/
def require (answer : Except Problem β) : Job β :=
  match answer with
  | .ok b => pure b
  | .error p => throw (.problem p)

/-- Go on with what the settings say, or fail. -/
def requireSettings (answer : Except SettingsFault β) : Job β :=
  require (answer.mapError .settings)

/-- Go on with what a forest says, or fail. -/
def requireForest (answer : Except Failure β) : Job β :=
  require (answer.mapError .ofFailure)

end Job

open Job

/-! ## Tasks -/

namespace Invocation

/-- The outline in the file at a path. One without nodes is worth a warning. -/
def readOutline (host : Host) (colours : Bool) (settings : Settings) (file : String) : Job OutlineForest := do
  match host.look file with
  | .readable content =>
    let O ← require (OutlineForest.parse settings.outlineStyle content)
    if O.roots.isEmpty then
      warn (paint colours yellow "Warning" ++ ": " ++ file ++ ": no nodes\n")
    return O
  | _ => throw (.problem (.unreadable file))

/-- The settings and the outline that a task on a file works with. -/
def prepare (host : Host) (colours : Bool) (dir : Option String) (file : String) :
    Job (Settings × OutlineForest) := do
  let settings ← require (Settings.load host dir)
  let O ← readOutline host colours settings file
  return (settings, O)

/-- The lines that tell the statistics of a tree. -/
def statsText (colours : Bool) (t : TreeStats) : String :=
  let field (label : String) (n : Nat) : String := "  " ++ paint colours faint label ++ ": " ++ toString n ++ "\n"
  paint colours boldCyan t.root ++ "\n" ++ field "nodes" t.nodes ++ field "depth" t.depth
    ++ field "leaves" t.leaves

/-- Carry out a task, with local settings from the given directory. -/
def perform (host : Host) (colours : Bool) (dir : Option String) : Task → Job Unit
  | .render file style => do
    let (settings, O) ← prepare host colours dir file
    match style.getD settings.style with
    | .outline => print (← requireForest (O.outline settings.outlineStyle))
    | .tree => print (← requireForest O.box)
  | .walk file order => do
    let (_, O) ← prepare host colours dir file
    print (unlines ((← requireForest (O.walk order)).map (" ".intercalate ·)))
  | .path file start stop => do
    let (_, O) ← prepare host colours dir file
    print (" -> ".intercalate (← require (O.pathValues start stop)) ++ "\n")
  | .stats file => do
    let (_, O) ← prepare host colours dir file
    print (String.join ((← requireForest O.stats).map (statsText colours)))
  | .configShow => do
    let settings ← require (Settings.load host dir)
    print (← requireSettings settings.toToml)
  | .configTemplate => print Settings.template
  | .completion shell => print (shell.script "arbor" (grammar.subcommands.map (·.name)))

/-- The directory whose settings count: the one that is asked for, or else the one the run starts in. -/
def settingsDirectory? (host : Host) (i : Invocation) : Option String :=
  i.configDir <|> host.workingDirectory

/-- Carry out an invocation. Without a task there has to be something to tell about the program. What is logged on the
    way depends on `debug` and is left out. -/
def execute (host : Host) (colours : Bool) (i : Invocation) : Job Unit :=
  match i.task with
  | some task => perform host colours (i.settingsDirectory? host) task
  | none => if i.info then pure () else throw .noCommand

end Invocation

/-! ## The program -/

/-- How a run went. Of the error output these are the notices, without the log lines of tasks and without the last
    words of a run that ends at a breach. -/
structure Report where
  exitCode : Nat
  stdout : String
  stderr : String
deriving DecidableEq, Repr

namespace Report

/-- The report of a job that was given some output to begin with. A failure is told on the error output. -/
def ofJob (colours : Bool) (job : Job Unit) (before : Output) : Report :=
  match job before with
  | .ok () out => ⟨0, out.stdout, out.notices⟩
  | .error fault out => ⟨fault.exitCode, out.stdout, out.notices ++ fault.notice colours⟩

end Report

namespace CommandLine.Usage

/-- A request is no error. -/
def exitCode : Usage → Nat
  | helpRequested | versionRequested _ => 0
  | _ => 2

/-- What there is to call the program with. -/
def helpText : String :=
  unlines [
    "usage: arbor [options] <command>",
    "",
    "commands: " ++ ", ".intercalate (Invocation.grammar.subcommands.map (·.name)),
    "options:  " ++ ", ".intercalate (Invocation.grammar.options.map ("--" ++ ·.long))]

/-- A command and its version, which is the program's. The command goes by the names of those above it and its
    own, joined by dashes. -/
def versionText (route : List String) : String :=
  unlines ["-".intercalate route ++ " 0.1.0"]

/-- The way a line ended, in words. -/
def message : Usage → String
  | helpRequested => "help is asked for"
  | versionRequested _ => "the version is asked for"
  | helpForWant => "a command is required"
  | missingSubcommand => "a subcommand is required"
  | missingArgument => "a required argument is missing"
  | unknownArgument => "unexpected argument"
  | unknownSubcommand => "unrecognized subcommand"
  | invalidValue => "invalid value"
  | unneededValue => "unexpected value"
  | repeated => "an argument cannot be used multiple times"

/-- How a run went that ended with reading the line. What was asked for goes to the standard output. -/
def report (u : Usage) : Report :=
  match u with
  | helpRequested => ⟨u.exitCode, helpText, ""⟩
  | versionRequested route => ⟨u.exitCode, versionText route, ""⟩
  | helpForWant => ⟨u.exitCode, "", helpText⟩
  | fault => ⟨u.exitCode, "", "error: " ++ fault.message ++ "\n"⟩

end CommandLine.Usage

namespace Program

/-- Whether a variable is set to something other than 0. -/
def switchedOn (value : Option String) : Option Bool :=
  value.map (· != "0")

/-- Whether to write in colours: if that is forced, or if the output goes to a terminal and nothing speaks
    against it. -/
def colours (host : Host) : Bool :=
  if switchedOn (host.envVar? "CLICOLOR_FORCE") = some true then true
  else if (host.envVar? "NO_COLOR").isSome then false
  else (switchedOn (host.envVar? "CLICOLOR")).getD true && host.terminal

/-- The paths that a run may look at: those of the settings files, and that of the outline. -/
def paths (host : Host) (words : List String) : List String :=
  match Invocation.read words with
  | .error _ => []
  | .ok i => Settings.paths host (i.settingsDirectory? host) ++ (i.task.bind Task.file?).toList

/-- What `--info` tells about the program. -/
def about : String := "AUTHOR: sysid\nVERSION: 0.1.0\n"

/-- What the program tells about the run when asked for: the message of its first log line, and before it what there
    is to say to one who asks for more than there is. The log lines of the tasks are left out. -/
def verbosityText : Nat → String
  | 0 => ""
  | 1 => "Debug mode: info\n"
  | 2 => "Debug mode: debug\n"
  | 3 => "Debug mode: trace\n"
  | _ => "Don't be crazy, max is -d -d -d\nDebug mode: trace\n"

/-- Run the program on a command line, without the program's name. -/
def run (host : Host) (words : List String) : Report :=
  match Invocation.read words with
  | .error usage => usage.report
  | .ok i =>
    let before : Output := ⟨if i.info then about else "", verbosityText i.debug⟩
    Report.ofJob (colours host) (i.execute host (colours host)) before

end Program

end Grove
