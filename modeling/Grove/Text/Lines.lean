/-!
# `Grove.Text.Lines` — texts as lines

A line ends at a line feed, and a carriage return right before that belongs to the end as well. A carriage
return anywhere else is part of the line. What follows the last line feed is a line if there is anything.
-/

namespace Grove.Text

/-- The lines of a text whose first line has begun with `line`, in reverse. -/
def linesFrom (line : List Char) : List Char → List (List Char)
  | [] => if line.isEmpty then [] else [line.reverse]
  | '\n' :: rest => line.reverse :: linesFrom [] rest
  | '\r' :: '\n' :: rest => line.reverse :: linesFrom [] rest
  | c :: rest => linesFrom (c :: line) rest

/-- The lines of a text, without their ends. -/
def lines (text : List Char) : List (List Char) :=
  linesFrom [] text

theorem linesFrom_append_newline {line : List Char} (begun rest : List Char) (hfeed : '\n' ∉ line)
    (hreturn : line.getLast? ≠ some '\r') :
    linesFrom begun (line ++ '\n' :: rest) = (begun.reverse ++ line) :: linesFrom [] rest := by
  induction line generalizing begun with
  | nil => simp [linesFrom]
  | cons c line ih =>
    have hc : c ≠ '\n' := by
      rintro rfl
      simp at hfeed
    have hline : '\n' ∉ line := fun h => hfeed (List.mem_cons_of_mem c h)
    rw [List.cons_append, linesFrom]
    · cases line with
      | nil => simp [linesFrom]
      | cons d line =>
        rw [ih (c :: begun) hline (by simpa using hreturn)]
        simp
    · exact hc
    · rintro tail rfl htail
      cases line with
      | nil => simp at hreturn
      | cons d line => simp_all

/-- A line that holds no line feed and does not end with a carriage return is read back as it was written. -/
theorem lines_append_newline {line : List Char} (rest : List Char) (hfeed : '\n' ∉ line)
    (hreturn : line.getLast? ≠ some '\r') : lines (line ++ '\n' :: rest) = line :: lines rest := by
  simpa [lines] using linesFrom_append_newline [] rest hfeed hreturn

example : lines "a\r\n\nb\rc\n".toList = ["a".toList, [], "b\rc".toList] := by decide

example : lines "a\r".toList = ["a\r".toList] := by decide

end Grove.Text
