import Grove.Host

/-!
# `Grove.Host.Records` — records of the operating system

What a run is given from outside comes as texts in fixed formats: the environment as a block of bytes, the
accounts as lines with fields between colons, and the state of the process as named lines. They are read here.
-/

namespace Grove.Records

/-- A variable in the form `NAME=value`. -/
def assignment? (text : String) : Option (String × String) :=
  match text.splitOn "=" with
  | name :: first :: rest => some (name, "=".intercalate (first :: rest))
  | _ => none

/-- The pieces between zero bytes. -/
def pieces (bytes : List UInt8) : List (List UInt8) :=
  bytes.splitOn 0

/-- The variables in a block of environment: a zero byte ends each. Runs are described for environments of texts
    only. A variable that is none is left out here, whereas the library that looks for settings may refuse the whole
    environment for it. -/
def environment (block : ByteArray) : List (String × String) :=
  (pieces block.toList).filterMap fun piece =>
    (String.fromUTF8? ⟨piece.toArray⟩).bind assignment?

/-- The number of the user a process belongs to, in the state of that process. -/
def user? (status : String) : Option String :=
  (status.splitOn "\n").findSome? fun line =>
    match line.splitOn "\t" with
    | "Uid:" :: user :: _ => some user
    | _ => none

/-- The home directory of a user in a list of accounts. -/
def home? (accounts user : String) : Option String :=
  (accounts.splitOn "\n").findSome? fun line =>
    match line.splitOn ":" with
    | [_, _, number, _, _, home, _] => if number = user && !home.isEmpty then some home else none
    | _ => none

end Grove.Records
