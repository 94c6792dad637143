import MathExpr.Number.Rounding
import MathExpr.Real.Reading
/-!
# Display settings

How numbers and vectors are written.
-/

namespace MathExpr

/-- What the number of places or figures is counted by. `other` stands for a word that is neither: it
leaves numbers as they are, except that multiples of pi are not looked for. An empty word, `blank`, does
the same, but is no wish for a precision. -/
inductive Counting where
  | places
  | figures
  | other
  | blank
  deriving DecidableEq, Repr

/-- The number of places or figures asked for, which may be given as text. -/
inductive Precision where
  | missing
  | unusable
  | given (n : Number)
  | text (s : String)
  deriving DecidableEq

/-- The display settings. -/
structure Settings where
  /-- Numbers that are no integers are written as fractions. -/
  fractions : Bool := false
  /-- Vectors are laid out in a row. -/
  rowVector : Bool := false
  /-- Numbers are written in full where rounding would change them. Left open, this is decided by
  whoever writes. -/
  exact : Option Bool := none
  counting : Option Counting := none
  precision : Precision := .missing

namespace Settings

/-- Whether numbers are written in full. -/
def isExact (s : Settings) : Bool := s.exact.getD false

/-- The same settings, with numbers written in full unless a precision is asked for or the settings
say otherwise. -/
def orExact (s : Settings) : Settings :=
  { s with exact := some (s.exact.getD (s.counting.all (· == .blank))) }

/-- The precision as a whole number. -/
def places (s : Settings) : Except Fault Int :=
  match s.precision with
  | .missing => .error .missingSetting
  | .unusable => .error .unsuitable
  | .given (.complex _) => .error .unsuitable
  | .given (.real x) => Real.truncInt x
  | .text s => (Real.readInt s).elim (.error .outsideDomain) .ok

end Settings

end MathExpr
