import MathExpr.Number.Fraction
import MathExpr.Settings
/-!
# Written numbers

How a number is written in source text: in decimals without an exponent, as a multiple of a power of
pi where it is one, and a complex number as a sum of its parts. Without a precision numbers are
rounded to `defaultPlaces` decimal places, unless they are to be written in full.
-/

namespace MathExpr.Number

/-- The decimal places that a number is rounded to where nothing else is asked for. -/
def defaultPlaces : Int := 10

/-- The number of digits after the first point of a text. -/
def countPlaces (text : List Char) : Nat :=
  ((text.dropWhile (· != '.')).drop 1).length

/-- The number of digits of a text from the first that is not zero on. -/
def countFigures (text : List Char) : Nat :=
  (((text.dropWhile (· == '-')).filter (· != '.')).dropWhile (· == '0')).length

/-- The text with zeros added at its end, after a point. -/
def addZeros (text : List Char) (missing : Int) : List Char :=
  if missing ≤ 0 then text
  else (if text.contains '.' then text else text ++ ['.']) ++ List.replicate missing.toNat '0'

/-- The text with zeros added to show as many decimal places. -/
def padPlaces (text : List Char) (places : Int) : List Char :=
  addZeros text (places - countPlaces text)

/-- The text with zeros added to show as many significant figures. -/
def padFigures (text : List Char) (figures : Int) : List Char :=
  if text.dropWhile (· == '-') = ['0'] then padPlaces text (figures - 1)
  else addZeros text (figures - countFigures text)

/-- The digits of a number with neither precision nor pi, and their value. Tiny numbers are zero, and
small ones are written in full. -/
def writtenDecimal (x : Float) : Except Fault (String × Float) := do
  if x.abs < 1e-15 then return ("0", 0.0)
  if x.abs < 1e-8 then return (Real.plainText x, x)
  let rounded ← roundPlacesReal x (.whole defaultPlaces)
  return (Real.plainText rounded, rounded)

/-- A power of pi. -/
def piPower (degree : Nat) : String :=
  if degree = 1 then "pi" else "pi^" ++ toString degree

/-- A real number with neither fraction nor precision. -/
def writtenPlain (settings : Settings) (degree : Nat) (whole : Float) : Except Fault String := do
  let power := powerOfPi degree
  let x := if degree = 0 then whole else whole / power
  let (text, value) ← writtenDecimal x
  if settings.isExact && !(value * power == whole) then return Real.plainText whole
  if degree = 0 then return text
  if x == 1.0 then return piPower degree
  if x == -1.0 then return "-" ++ piPower degree
  return text ++ " " ++ piPower degree

/-- A real number. -/
def writtenReal (settings : Settings) (x : Float) : Except Fault String :=
  if x.isNaN then .ok "nan"
  else if x == Real.infinity then .ok "infinity"
  else if x == -Real.infinity then .ok "-infinity"
  else
    match settings.counting with
    | some .figures => do
      let places ← settings.places
      let x ← roundFiguresReal x (.whole places)
      return String.ofList (padFigures (Real.plainText x).toList places)
    | some .places => do
      let places ← settings.places
      let x ← roundPlacesReal x (.whole places)
      return String.ofList (padPlaces (Real.plainText x).toList places)
    | some .other | some .blank => writtenPlain settings 0 x
    | none => writtenPlain settings (piDegree x) x

/-- Whether a part of a complex number counts as zero: exactly, or after rounding. -/
def partIsZero (settings : Settings) (x : Float) : Except Fault Bool :=
  if settings.isExact then .ok (x == 0.0)
  else return (← roundPlacesReal x (.whole defaultPlaces)) == 0.0

/-- A number as source text. -/
def written (settings : Settings) : Number → Except Fault String
  | real x => writtenReal settings x
  | complex z => do
    let re ← writtenReal settings z.re
    let im ← writtenReal settings z.im
    if ← partIsZero settings z.im then return re
    if ← partIsZero settings z.re then
      return if z.im == 1.0 then "i" else if z.im == -1.0 then "-i" else im ++ "*i"
    if z.im < 0.0 then
      return if z.im == -1.0 then re ++ " - i"
        else re ++ " - " ++ String.ofList (im.toList.dropWhile (· == '-')) ++ "*i"
    return if z.im == 1.0 then re ++ " + i" else re ++ " + " ++ im ++ "*i"

/-- A number as source text, with fractions where they are asked for. -/
def source (settings : Settings) : Number → Except Fault String
  | real x =>
    if settings.fractions && x.isFinite && !Real.isInteger x then do
      let (n, d) ← rationalApproximation x defaultAccuracy
      return if d = 1 then toString n else toString n ++ "/" ++ toString d
    else written settings (real x)
  | z => written settings z

end MathExpr.Number
