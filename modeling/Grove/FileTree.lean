import Grove.Host

/-!
# `Grove.FileTree` — files held in memory

A run takes its files from a function of the path (`Host.look`). A file tree gives such a function without a
disk: it lists files and directories by their places, and `FileTree.look` finds what a path leads to.

A place is the list of the names on the way from the top. A path is gone through name by name; each name on the
way has to be that of a directory, so `file/..` leads nowhere, and neither does a file's name with a slash
after it.
-/

namespace Grove

/-- What stands at a place. -/
inductive FileTree.Entry where
  | file (bytes : ByteArray)
  | directory

/-- Files and directories by their places. The directories on the way to them need not be listed. -/
structure FileTree where
  entries : List (List String × FileTree.Entry)

namespace FileTree

/-- The names in a path. An absolute path begins with an empty name. -/
def names (path : String) : List String :=
  path.splitOn "/"

/-- What stands at a place, if anything does. The top is always there. -/
def entry? (t : FileTree) (place : List String) : Option Entry :=
  match t.entries.lookup place with
  | some entry => some entry
  | none =>
    if place.isEmpty || t.entries.any (fun listed => place.isPrefixOf listed.1) then some .directory
    else none

/-- Go from a place along the given names. -/
def follow? (t : FileTree) (place : List String) : List String → Option Entry
  | [] => t.entry? place
  | name :: rest =>
    match t.entry? place with
    | some .directory =>
      if name = "" || name = "." then t.follow? place rest
      else if name = ".." then t.follow? place.dropLast rest
      else t.follow? (place ++ [name]) rest
    | _ => none

/-- What reading a path comes to, where relative paths start at the given place. The empty path leads
    nowhere. -/
def look (t : FileTree) (start : List String) (path : String) : FileState :=
  if path.isEmpty then
    .missing
  else
    match t.follow? (if Path.isAbsolute path then [] else start) (names path) with
    | none => .missing
    | some .directory => .directory
    | some (.file bytes) => .ofBytes bytes

end FileTree

end Grove
