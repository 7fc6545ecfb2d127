import Grove.CommandLine.Run
import Grove.Host.Records

/-!
# `Grove.Main` — the program

Collects what a run is given from outside, lets `Program.run` do the work, and prints its report. Only the paths
that `Program.paths` lists are looked at, and all of them before the run.
-/

namespace Grove.Main

/-- The reason that the system gives for an error. -/
def reason (details : String) (code : UInt32) : String :=
  details ++ " (os error " ++ toString code ++ ")"

/-- The error code for a path that passes through something that is no directory. -/
def notADirectory : UInt32 := 20

/-- What reading a path comes to now. -/
def look (path : String) : IO FileState := do
  try
    return .ofBytes (← IO.FS.readBinFile path)
  catch
    | .noFileOrDirectory .. => return .missing
    | .inappropriateType _ code details =>
      return if code = notADirectory then .missing else .unreadable (reason details code)
    | .permissionDenied _ code details => return .unreadable (reason details code)
    | error => return .unreadable (toString error)

/-- The bytes of a file, if it can be read. -/
def bytes? (path : String) : IO (Option ByteArray) := do
  try
    return some (← IO.FS.readBinFile path)
  catch _ =>
    return none

/-- The text of a file, if it can be read. -/
def text? (path : String) : IO (Option String) := do
  return (← bytes? path).bind String.fromUTF8?

/-- The home directory of the account that the process belongs to. -/
def accountHome? : IO (Option String) := do
  let status ← text? "/proc/self/status"
  let accounts ← text? "/etc/passwd"
  return do Records.home? (← accounts) (← Records.user? (← status))

/-- The directory that the process started in. -/
def workingDirectory? : IO (Option String) := do
  try
    return some (← IO.currentDir).toString
  catch _ =>
    return none

/-- Everything but the files. The settings of the environment are taken up as they come. -/
def surroundings : IO Host := do
  return {
    environment := ((← bytes? "/proc/self/environ").map Records.environment).getD []
    workingDirectory := ← workingDirectory?
    accountHome := ← accountHome?
    terminal := ← (← IO.getStdout).isTty
    look := fun _ => .missing }

end Grove.Main

open Grove in
/-- Run the program on a command line. -/
def main (words : List String) : IO UInt32 := do
  let host ← Main.surroundings
  let found ← (Program.paths host words).mapM fun path => return (path, ← Main.look path)
  let report := Program.run { host with look := fun path => (found.lookup path).getD .missing } words
  IO.print report.stdout
  IO.eprint report.stderr
  return UInt32.ofNat report.exitCode
