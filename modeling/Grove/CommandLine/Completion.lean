/-!
# `Grove.CommandLine.Completion` — completing words in a shell

A shell that is told the subcommands of a program can complete them. Each shell is told in its own language.
-/

namespace Grove

/-- The shells that can be told. -/
inductive Shell where
  | bash
  | elvish
  | fish
  | powershell
  | zsh
deriving DecidableEq, Repr

namespace Shell

def name : Shell → String
  | bash => "bash"
  | elvish => "elvish"
  | fish => "fish"
  | powershell => "powershell"
  | zsh => "zsh"

def all : List Shell :=
  [bash, elvish, fish, powershell, zsh]

/-- The shell with exactly this name. -/
def ofName? (name : String) : Option Shell :=
  all.find? fun shell => shell.name == name

/-- A script that tells the shell to complete the given words after the name of the program. -/
def script (program : String) (words : List String) : Shell → String
  | bash => "complete -W '" ++ " ".intercalate words ++ "' " ++ program ++ "\n"
  | elvish => "set edit:completion:arg-completer[" ++ program ++ "] = \x7b|@words| put "
      ++ " ".intercalate words ++ " \x7d\n"
  | fish => "complete -c " ++ program ++ " -f -a '" ++ " ".intercalate words ++ "'\n"
  | powershell => "Register-ArgumentCompleter -Native -CommandName " ++ program
      ++ " -ScriptBlock \x7b '" ++ "', '".intercalate words ++ "' \x7d\n"
  | zsh => "compctl -k '(" ++ " ".intercalate words ++ ")' " ++ program ++ "\n"

end Shell

end Grove
