/-!
# `Grove.Host` — what a run is given from outside

The environment variables, the directory a run starts in, and the files. A run only ever reads them, so they
are one value here; what stands at a path is a function of the path. With them goes what nobody chooses: the order
in which the settings of the environment are taken up, and how long their lists can get.
-/

namespace Grove

/-- What reading a path comes to. -/
inductive FileState where
  | missing
  | readable (content : String)
  /-- There is something, but no text can be read from it. -/
  | unreadable (reason : String)

/-- A file with the given bytes: a text only if they are UTF-8. -/
def FileState.ofBytes (bytes : ByteArray) : FileState :=
  match String.fromUTF8? bytes with
  | some content => readable content
  | none => unreadable "stream did not contain valid UTF-8"

/-- What a directory is, to one who wants to read it. -/
def FileState.directory : FileState :=
  unreadable "Is a directory (os error 21)"

/-- An order in which to take up pairs that are kept without one: none is added and none is left out. -/
structure Arrangement where
  arrange : List (String × String) → List (String × String)
  perm : ∀ pairs, (arrange pairs).Perm pairs

/-- The order in which the pairs come. -/
def Arrangement.asGiven : Arrangement where
  arrange pairs := pairs
  perm pairs := .refl pairs

/-- The surroundings of a run. -/
structure Host where
  environment : List (String × String)
  /-- The directory the run starts in, if it is known. -/
  workingDirectory : Option String
  /-- The home directory of the account, for want of a variable that names one. -/
  accountHome : Option String
  /-- Whether the output goes to a terminal. -/
  terminal : Bool
  look : String → FileState
  /-- How the settings of the environment are arranged before they are taken up. -/
  order : Arrangement := .asGiven
  /-- The length beyond which no list of settings can grow. It is at most the number of bytes that a list can have;
      how much less depends on how elements are kept. Memory for shorter lists is taken for granted. -/
  listLimit : Nat := 9223372036854775807

namespace Host

/-- The value of an environment variable. -/
def envVar? (host : Host) (name : String) : Option String :=
  host.environment.lookup name

end Host

/-! ## Paths -/

namespace Path

def isAbsolute (path : String) : Bool :=
  path.startsWith "/"

/-- The path of `name` in the directory `dir`. A slash goes between them unless `dir` ends in one or is empty,
    and an absolute `name` stands for itself. -/
def join (dir name : String) : String :=
  if isAbsolute name || dir.isEmpty then name
  else if dir.endsWith "/" then dir ++ name
  else dir ++ "/" ++ name

end Path

end Grove
