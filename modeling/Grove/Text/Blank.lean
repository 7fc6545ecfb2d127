/-!
# `Grove.Text.Blank` — white space

The characters with the Unicode property `White_Space`, which are all a blank line may hold.
-/

namespace Grove.Text

/-- The characters with the property `White_Space`, as ranges of code points, ends included. -/
def blankRanges : List (Nat × Nat) :=
  [(0x0009, 0x000D), (0x0020, 0x0020), (0x0085, 0x0085), (0x00A0, 0x00A0), (0x1680, 0x1680),
   (0x2000, 0x200A), (0x2028, 0x2029), (0x202F, 0x202F), (0x205F, 0x205F), (0x3000, 0x3000)]

/-- Whether `c` has the property `White_Space`. -/
def isBlank (c : Char) : Bool :=
  blankRanges.any fun (first, last) => first ≤ c.toNat && c.toNat ≤ last

/-- The white space of ASCII is among it. -/
theorem isBlank_of_isWhitespace {c : Char} (h : c.isWhitespace = true) : isBlank c = true := by
  simp only [Char.isWhitespace, Bool.or_eq_true, decide_eq_true_eq] at h
  rcases h with ((rfl | rfl) | rfl) | rfl <;> decide

example : isBlank ' ' ∧ isBlank '\t' ∧ isBlank '\u00a0' ∧ isBlank '\u3000' := by decide

example : ¬ isBlank '\u200b' ∧ ¬ isBlank '\ufeff' ∧ ¬ isBlank '_' := by decide

end Grove.Text
