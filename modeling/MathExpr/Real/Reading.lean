import MathExpr.Real.Decimal
import MathExpr.Text.Blank
import MathExpr.Text.Case
import MathExpr.Text.Digit
/-!
# Reading numbers from a setting

Numbers in settings and arguments may be given as text: an optional sign, digits that may be grouped
by single underscores, an optional fraction and exponent, or the words for infinity and not a number.
The digits may be those of any script. Blank characters around the text are ignored.
-/

namespace MathExpr.Real

/-- Whether a character may stand around a number: a blank one that is not a control character for the
separation of records. -/
def isPadding (c : Char) : Bool :=
  Text.isBlank c && !(decide (0x1c ≤ c.toNat) && decide (c.toNat ≤ 0x1f))

/-- The text of a number without what stands around it, with its digits in the first row. -/
def bare (s : String) : List Char :=
  Text.plainDigits (Text.trimBoth isPadding s.toList)

/-- Digits at the start of a text, grouped by single underscores, and what follows them. -/
def takeDigits : List Char → List Char × List Char
  | c :: '_' :: d :: rest =>
    if c.isDigit then
      if d.isDigit then
        let (digits, rest) := takeDigits (d :: rest)
        (c :: digits, rest)
      else ([c], '_' :: d :: rest)
    else ([], c :: '_' :: d :: rest)
  | c :: rest =>
    if c.isDigit then
      let (digits, rest) := takeDigits rest
      (c :: digits, rest)
    else ([], c :: rest)
  | [] => ([], [])

/-- The sign at the start of a text (whether it is a minus), and what follows. -/
def takeSign : List Char → Bool × List Char
  | '-' :: rest => (true, rest)
  | '+' :: rest => (false, rest)
  | rest => (false, rest)

/-- The value of digits. -/
def natOfDigits (digits : List Char) : Nat :=
  digits.foldl (fun n c => 10 * n + (c.toNat - '0'.toNat)) 0

/-- The largest number of digits of an integer. -/
def maxDigits : Nat := 4300

/-- The integer written in a text. -/
def readInt (s : String) : Option Int :=
  let (negative, rest) := takeSign (bare s)
  match takeDigits rest with
  | ([], _) | (_, _ :: _) => none
  | (digits, []) =>
    if maxDigits < digits.length then none
    else some (if negative then -Int.ofNat (natOfDigits digits) else Int.ofNat (natOfDigits digits))

/-- The exponent at the end of a number. -/
def readExponent : List Char → Option Int
  | [] => some 0
  | c :: rest =>
    if c = 'e' ∨ c = 'E' then
      let (negative, rest) := takeSign rest
      match takeDigits rest with
      | ([], _) | (_, _ :: _) => none
      | (digits, []) =>
        some (if negative then -Int.ofNat (natOfDigits digits) else Int.ofNat (natOfDigits digits))
    else none

/-- The number without a sign written in a text. -/
def readSize (cs : List Char) : Option Float :=
  let word := Text.lower (String.ofList cs)
  if word = "inf" ∨ word = "infinity" then some infinity
  else if word = "nan" then some nan
  else
    let (whole, rest) := takeDigits cs
    let (fraction, rest) := match rest with
      | '.' :: rest => takeDigits rest
      | rest => ([], rest)
    if whole.isEmpty && fraction.isEmpty then none
    else (readExponent rest).map (ofDigits whole fraction)

/-- The number written in a text. -/
def read (s : String) : Option Float :=
  let (negative, rest) := takeSign (bare s)
  (readSize rest).map (signed negative)

end MathExpr.Real
