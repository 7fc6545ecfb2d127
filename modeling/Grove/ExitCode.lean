import Grove.Problem

/-!
# `Grove.ExitCode` — how a run that failed is reported to its caller

The codes are those of `sysexits.h`.
-/

namespace Grove

namespace ExitCode

/-- The command line was used wrongly. -/
def usage : Nat := 64

/-- The data is malformed, or does not fit the request. -/
def dataError : Nat := 65

/-- An input cannot be opened. -/
def noInput : Nat := 66

/-- An error inside the program. -/
def software : Nat := 70

/-- An error in the settings. -/
def config : Nat := 78

/-- The run ended at a breach. -/
def breach : Nat := 101

end ExitCode

/-- A name that does not resolve and a walker that is out of date are errors of the program; the other errors
    are in the request. -/
def TreeError.exitCode : TreeError → Nat
  | nodeNotFound _ | staleIterator .. => ExitCode.software
  | _ => ExitCode.dataError

def Problem.exitCode : Problem → Nat
  | tree error => error.exitCode
  | breach _ => ExitCode.breach
  | outline .. | valueNotFound _ => ExitCode.dataError
  | settings _ => ExitCode.config
  | unreadable _ => ExitCode.noInput

end Grove
