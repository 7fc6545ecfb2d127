/-!
# `Grove.CommandLine.Grammar` — command lines

A command takes options, which begin with dashes and may come in any order, positional arguments, and perhaps a
subcommand, with which the rest of the line is read. Reading a line goes from left to right and stops at the
first fault. An option that takes a value has it attached (`--style=tree`, `-Csub`) or as the next word; in
between it is *pending*, and its value is looked at when the next option or positional argument comes up or the
line ends.

## Contents
- `Command` describes what a command takes, `Usage` lists the ways in which a line can be wrong or ask for
  something else than a run.
- `Command.read` reads a line; it answers with what was found for the command and each subcommand below it.
-/

namespace Grove.CommandLine

/-- How a line ends without a run. The first two are requests, the others faults. -/
inductive Usage where
  | helpRequested
  /-- The version of a command, by the names of the commands on the way to it, the outermost first. -/
  | versionRequested (route : List String)
  /-- A subcommand is needed, and nothing at all was given. -/
  | helpForWant
  | missingSubcommand
  | missingArgument
  | unknownArgument
  | unknownSubcommand
  /-- A value is missing, empty where it may not be, or not among those possible. -/
  | invalidValue
  /-- A value for an option that takes none. -/
  | unneededValue
  /-- An option that may occur once occurs again. -/
  | repeated
deriving DecidableEq, Repr

/-- The texts that an argument takes. -/
inductive Domain where
  | anyText
  | path
  | oneOf (names : List String)

/-- Whether a text is one that the argument takes. -/
def Domain.accepts : Domain → String → Bool
  | anyText, _ => true
  | path, text => !text.isEmpty
  | oneOf names, text => names.contains text

/-- What an option does. -/
inductive Action where
  | take (domain : Domain)
  | raise
  | count
  | help
  | version

/-- An option, by its long name and perhaps a letter. -/
structure Flag where
  long : String
  short : Option Char
  action : Action

/-- A positional argument; all of them are required. -/
structure Positional where
  name : String
  domain : Domain

/-- What a command takes. -/
inductive Command where
  | mk (name : String) (options : List Flag) (required : List String) (positionals : List Positional)
      (subcommands : List Command) (needsSubcommand : Bool)

namespace Command

def name : Command → String
  | mk name .. => name

def options : Command → List Flag
  | mk _ options .. => options

/-- The long names of the options that must be given. -/
def required : Command → List String
  | mk _ _ required .. => required

def positionals : Command → List Positional
  | mk _ _ _ positionals .. => positionals

def subcommands : Command → List Command
  | mk _ _ _ _ subcommands _ => subcommands

def needsSubcommand : Command → Bool
  | mk _ _ _ _ _ needsSubcommand => needsSubcommand

def subcommand? (c : Command) (word : String) : Option Command :=
  c.subcommands.find? (·.name == word)

def long? (c : Command) (name : String) : Option Flag :=
  c.options.find? (·.long == name)

def short? (c : Command) (letter : Char) : Option Flag :=
  c.options.find? (·.short == some letter)

end Command

/-! ## What has been found -/

/-- What has been found for one command: values by name, options raised, and occurrences of those counted. -/
structure Matches where
  values : List (String × String)
  raised : List String
  counted : List String

namespace Matches

def empty : Matches where
  values := []
  raised := []
  counted := []

/-- Whether nothing was given. -/
def isEmpty (m : Matches) : Bool :=
  m.values.isEmpty && m.raised.isEmpty && m.counted.isEmpty

/-- Record a value for an argument that may have one. -/
def take (name : String) (domain : Domain) (value : String) (m : Matches) : Except Usage Matches :=
  if (m.values.lookup name).isSome then .error .repeated
  else if domain.accepts value then .ok { m with values := m.values ++ [(name, value)] }
  else .error .invalidValue

end Matches

/-- An argument whose value is still to be looked at, and the value if it has come. -/
structure Pending where
  name : String
  domain : Domain
  value : Option String

/-- Where reading a line stands. -/
structure State where
  /-- The names of the commands down to the one whose words are read, the outermost first. -/
  route : List String
  found : Matches
  pending : Option Pending
  /-- How many positional arguments have come. -/
  places : Nat
  /-- Whether only positional arguments follow. -/
  escaped : Bool

namespace State

/-- Before any word of a command. -/
def start (route : List String) : State where
  route := route
  found := .empty
  pending := none
  places := 0
  escaped := false

/-- Look at the pending value. -/
def settle (s : State) : Except Usage State :=
  match s.pending with
  | none => .ok s
  | some ⟨_, _, none⟩ => .error .invalidValue
  | some ⟨name, domain, some value⟩ => do
    return { s with found := ← s.found.take name domain value, pending := none }

/-- Whether the next word is the value of an option. -/
def awaits (s : State) : Bool :=
  match s.pending with
  | some ⟨_, _, none⟩ => true
  | _ => false

/-- An option without a value. -/
def mark (flag : Flag) (s : State) : Except Usage State := do
  let s ← s.settle
  match flag.action with
  | .help => .error .helpRequested
  | .version => .error (.versionRequested s.route)
  | .count => return { s with found := { s.found with counted := s.found.counted ++ [flag.long] } }
  | .raise =>
    if s.found.raised.contains flag.long then .error .repeated
    else return { s with found := { s.found with raised := s.found.raised ++ [flag.long] } }
  | .take _ => .error .invalidValue

/-- An option with a value, attached or still to come. -/
def expect (name : String) (domain : Domain) (attached : Option String) (s : State) : Except Usage State := do
  let s ← s.settle
  match attached with
  | some value => return { s with found := ← s.found.take name domain value }
  | none => return { s with pending := some ⟨name, domain, none⟩ }

end State

/-! ## Reading words -/

/-- A word that begins with two dashes, without them: a name, and the value after the first `=`. -/
def splitLong (word : List Char) : String × Option String :=
  match word.dropWhile (· != '=') with
  | [] => (String.ofList word, none)
  | _ :: value => (String.ofList (word.takeWhile (· != '=')), some (String.ofList value))

/-- A long option. -/
def readLong (c : Command) (s : State) (word : List Char) : Except Usage State :=
  let (name, attached) := splitLong word
  match c.long? name with
  | none => .error .unknownArgument
  | some flag =>
    match flag.action, attached with
    | .take domain, _ => s.expect flag.long domain attached
    | _, some _ => .error .unneededValue
    | _, none => s.mark flag

/-- Letters after a single dash. A letter whose option takes a value has what follows as its value, after an `=`
    or not. -/
def readShort (c : Command) : State → List Char → Except Usage State
  | s, [] => .ok s
  | s, letter :: rest =>
    match c.short? letter with
    | none => .error .unknownArgument
    | some flag =>
      match flag.action with
      | .take domain =>
        match rest with
        | [] => s.expect flag.long domain none
        | '=' :: value => s.expect flag.long domain (some (String.ofList value))
        | value => s.expect flag.long domain (some (String.ofList value))
      | _ => do readShort c (← s.mark flag) rest

/-- A word that is no option: the next positional argument, if there is one. -/
def readPlace (c : Command) (s : State) (word : String) : Except Usage State :=
  match c.positionals[s.places]? with
  | some place => do
    let s ← s.settle
    return { s with pending := some ⟨place.name, place.domain, some word⟩, places := s.places + 1 }
  | none =>
    if s.escaped && (c.subcommand? word).isSome then .error .unknownArgument
    else if c.subcommands.isEmpty then .error .unknownArgument
    else .error .unknownSubcommand

/-- One word that is no subcommand. -/
def readWord (c : Command) (s : State) (word : String) : Except Usage State :=
  if s.escaped then
    readPlace c s word
  else
    match word.toList with
    | ['-', '-'] => .ok { s with escaped := true }
    | '-' :: '-' :: long => readLong c s long
    | '-' :: letter :: rest => readShort c s (letter :: rest)
    | _ =>
      match s.pending with
      | some ⟨name, domain, none⟩ => .ok { s with pending := some ⟨name, domain, some word⟩ }
      | _ => readPlace c s word

/-- What the words after `help` ask for: the help of a command, if they lead to one. -/
def readHelp (c : Command) : List String → Usage
  | [] => .helpRequested
  | word :: rest =>
    match c.subcommand? word with
    | some sub => readHelp sub rest
    | none => .unknownSubcommand

/-- The end of the words for a command: settle what is pending and see that nothing is missing. -/
def finish (c : Command) (s : State) (hasSubcommand : Bool) : Except Usage Matches := do
  let s ← s.settle
  if !hasSubcommand && c.needsSubcommand then
    .error (if s.found.isEmpty then .helpForWant else .missingSubcommand)
  else if s.places < c.positionals.length || !c.required.all fun name => (s.found.values.lookup name).isSome then
    .error .missingArgument
  else
    .ok s.found

/-- The name of the subcommand that every command with subcommands has besides. -/
def helpWord : String := "help"

/-- Read words for a command from where reading stands. The answer names each command on the way and what was
    found for it, the outermost first. -/
def readWords (c : Command) (s : State) : List String → Except Usage (List (String × Matches))
  | [] => do return [(c.name, ← finish c s false)]
  | word :: rest =>
    match if s.escaped || s.awaits then none else c.subcommand? word with
    | some sub =>
      if word = helpWord then
        .error (readHelp c rest)
      else do
        let below ← readWords sub (.start (s.route ++ [sub.name])) rest
        return (c.name, ← finish c s true) :: below
    | none => do readWords c (← readWord c s word) rest

/-- Read a command line, without the name of the program. -/
def Command.read (c : Command) (words : List String) : Except Usage (List (String × Matches)) :=
  readWords c (.start [c.name]) words

end Grove.CommandLine
