/-!
# Ranges of characters

A class of characters is written as the list of its ranges of code points, both ends included.
-/

namespace MathExpr.Text

/-- Ranges of code points, both ends included, in increasing order. -/
abbrev Ranges := List (Nat × Nat)

/-- Whether a code point lies in one of the ranges. -/
def Ranges.contains (rs : Ranges) (c : Nat) : Bool :=
  rs.any fun r => decide (r.1 ≤ c) && decide (c ≤ r.2)

end MathExpr.Text
