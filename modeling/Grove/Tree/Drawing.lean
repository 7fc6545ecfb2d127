import Grove.Tree.Basic

/-!
# `Grove.Tree.Drawing` — trees as text

Two renderings of a tree of strings, both one line per node in preorder. The *outline* indents a line by its
level and puts a fixed text, the lead, before the value:

```text
+- a
  +- b
    +- d
  +- c
```

The *box drawing* leads from each node to its parent with lines:

```text
a
├── b
│   └── d
└── c
```
-/

namespace Grove

/-- Each line followed by a line feed. -/
def unlines (lines : List String) : String :=
  String.join (lines.map (· ++ "\n"))

/-! ## Outlines -/

/-- How an outline is laid out. -/
structure OutlineStyle where
  /-- Spaces per level. -/
  indent : Nat
  /-- The text before each value. -/
  lead : String
deriving DecidableEq, Repr

namespace OutlineStyle

/-- Two spaces per level, and `+- ` before each value. -/
def standard : OutlineStyle where
  indent := 2
  lead := "+- "

instance : Inhabited OutlineStyle := ⟨standard⟩

/-- The widest indentation that can be written. -/
def maxPadding : Nat := 65535

/-- The line of a value on the given level. -/
def line (style : OutlineStyle) (level : Nat) (value : String) : Except Failure String :=
  let columns := level * style.indent
  if maxPadding < columns then
    .error (.breach (.paddingTooWide columns))
  else
    .ok (String.ofList (List.replicate columns ' ') ++ style.lead ++ value)

end OutlineStyle

namespace Tree

mutual

/-- The lines of a tree whose top is on the given level. -/
def outlineLines (style : OutlineStyle) (level : Nat) : Tree String → Except Failure (List String)
  | node value children => do
    let line ← style.line level value
    return line :: (← outlineLinesOfAll style (level + 1) children)

/-- The lines of trees whose tops are on the given level. -/
def outlineLinesOfAll (style : OutlineStyle) (level : Nat) : List (Tree String) → Except Failure (List String)
  | [] => return []
  | t :: rest => do
    let lines ← outlineLines style level t
    return lines ++ (← outlineLinesOfAll style level rest)

end

/-- The outline of a tree, its top on level 0. -/
def outline (style : OutlineStyle) (t : Tree String) : Except Failure String :=
  return unlines (← t.outlineLines style 0)

/-! ## Box drawings -/

mutual

/-- The lines of a tree that hangs from a node. `rails` is drawn before each of them, and `last` tells whether
    no sibling follows. -/
def branchLines (rails : String) (last : Bool) : Tree String → List String
  | node value children =>
    (rails ++ (if last then "└── " else "├── ") ++ value)
      :: branchLinesOfAll (rails ++ if last then "    " else "│   ") children

/-- The lines of the trees that hang from one node. -/
def branchLinesOfAll (rails : String) : List (Tree String) → List String
  | [] => []
  | t :: rest => branchLines rails rest.isEmpty t ++ branchLinesOfAll rails rest

end

/-- The lines of a tree of its own. -/
def boxLines : Tree String → List String
  | node value children => value :: branchLinesOfAll "" children

/-- The box drawing of a tree. -/
def box (t : Tree String) : String :=
  unlines t.boxLines

end Tree

namespace Forest

/-- The subtree of `n` as an outline, `n` on level 0. -/
def outline (F : Forest String) (style : OutlineStyle) (n : NodeId) : Except Failure String := do
  (← F.subtree n).outline style

/-- The subtree of `n` as a box drawing. -/
def box (F : Forest String) (n : NodeId) : Except Failure String :=
  return (← F.subtree n).box

end Forest

end Grove
