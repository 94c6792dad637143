import MathExpr.Text.Ranges
/-!
# Blank characters

The characters that count as white space at the ends of a text, over the whole of Unicode, and
`strip`, which removes them there. Every white space character of the core library is one of them.
-/

namespace MathExpr.Text

/-- The ranges of the blank characters. -/
def blankRanges : Ranges := [
  (0x9, 0xd), (0x1c, 0x20), (0x85, 0x85), (0xa0, 0xa0), (0x1680, 0x1680), (0x2000, 0x200a),
  (0x2028, 0x2029), (0x202f, 0x202f), (0x205f, 0x205f), (0x3000, 0x3000)]

/-- Whether a character is blank. -/
def isBlank (c : Char) : Bool :=
  blankRanges.contains c.toNat

theorem isBlank_of_isWhitespace {c : Char} (h : c.isWhitespace = true) : isBlank c = true := by
  simp only [Char.isWhitespace, Bool.or_eq_true, decide_eq_true_eq] at h
  rcases h with ((rfl | rfl) | rfl) | rfl <;> decide

/-- The text without the characters of a class at its two ends. -/
def trimBoth (p : Char → Bool) (cs : List Char) : List Char :=
  ((cs.dropWhile p).reverse.dropWhile p).reverse

/-- The text without the blank characters at its two ends, on lists of characters. -/
def stripChars (cs : List Char) : List Char := trimBoth isBlank cs

/-- The text without the blank characters at its two ends. -/
def strip (s : String) : String :=
  String.ofList (stripChars s.toList)

end MathExpr.Text
