import Juxta.Text.Ranges

/-!
# White space

* `isBlank` : the Unicode property White_Space;
* `isBlank_of_isWhitespace` : it holds of every character of core's ASCII class.
-/

namespace Juxta.Text

/-- The code points with the Unicode property White_Space. -/
def blankRanges : Ranges :=
  [(0x9, 0xD), (0x20, 0x20), (0x85, 0x85), (0xA0, 0xA0), (0x1680, 0x1680), (0x2000, 0x200A),
  (0x2028, 0x2029), (0x202F, 0x202F), (0x205F, 0x205F), (0x3000, 0x3000)]

/-- Whether a character separates tokens and is trimmed from the text of a number. -/
def isBlank (c : Char) : Bool := blankRanges.contains c.toNat

theorem isBlank_of_isWhitespace {c : Char} (h : c.isWhitespace = true) : isBlank c = true := by
  simp only [Char.isWhitespace, Bool.or_eq_true, decide_eq_true_eq] at h
  rcases h with ((rfl | rfl) | rfl) | rfl <;> decide

/-- The text without the blanks at both of its ends. -/
def trim (text : List Char) : List Char :=
  ((text.dropWhile isBlank).reverse.dropWhile isBlank).reverse

end Juxta.Text
