import MathExpr.Real.Binary
/-!
# Decimals

Decimal numbers `coefficient · 10 ^ exponent` with integer coefficient. Sums are exact and then
rounded to `precision` digits, a half going to the even neighbour; conversion to floating point rounds
once more.

`shortest` finds the decimal with the fewest digits that reads back as a given floating-point number:
among the decimals with that many digits that round to the number it takes the nearest.
-/

namespace MathExpr

attribute [local instance (2000)] instPowNat

/-- The decimal number `coefficient · 10 ^ exponent`. -/
structure Decimal where
  coefficient : Int
  exponent : Int
  deriving DecidableEq, Repr

namespace Decimal

/-- The number of significant digits kept by arithmetic. -/
def precision : Nat := 28

/-- The largest shift of an exponent that decimal arithmetic carries out. -/
def maxShift : Nat := 2 * (999999 + precision)

/-- The decimal digits of a natural number. -/
def digitsOf (n : Nat) : List Char :=
  Nat.toDigits 10 n

/-- The quotient rounded to the nearest integer, a half to the even neighbour. -/
def divHalfEven (n d : Nat) : Nat :=
  let q := n / d
  let r := n % d
  if 2 * r < d then q
  else if d < 2 * r then q + 1
  else if q % 2 = 0 then q else q + 1

/-- The decimal rounded to at most `digits` significant digits. -/
def roundTo (digits : Nat) (d : Decimal) : Decimal :=
  let count := (digitsOf d.coefficient.natAbs).length
  if count ≤ digits then d
  else
    let drop := count - digits
    let kept := divHalfEven d.coefficient.natAbs (10 ^ drop)
    ⟨if d.coefficient < 0 then -Int.ofNat kept else Int.ofNat kept, d.exponent + drop⟩

/-- The integer `n`. -/
def ofInt (n : Int) : Decimal := ⟨n, 0⟩

/-- The decimal times `10 ^ n`, rounded to the precision. -/
def shift (d : Decimal) (n : Int) : Except Fault Decimal :=
  if maxShift < n.natAbs then .error .decimalRange
  else .ok (roundTo precision ⟨d.coefficient, d.exponent + n⟩)

/-- The sum, rounded to the precision. -/
def add (a b : Decimal) : Decimal :=
  if a.coefficient = 0 then roundTo precision b
  else if b.coefficient = 0 then roundTo precision a
  else
    let low := min a.exponent b.exponent
    roundTo precision
      ⟨a.coefficient * 10 ^ (a.exponent - low).toNat
        + b.coefficient * 10 ^ (b.exponent - low).toNat, low⟩

/-- The nearest floating-point number. -/
def toFloat (d : Decimal) : Float :=
  let size := Float.ofScientific d.coefficient.natAbs (decide (d.exponent < 0)) d.exponent.natAbs
  if d.coefficient < 0 then -size else size

/-- The same number with no zero at the end of its coefficient, by removing at most `fuel` zeros. -/
def trimZeros : Nat → Decimal → Decimal
  | 0, d => d
  | fuel + 1, d =>
    if d.coefficient ≠ 0 ∧ d.coefficient % 10 = 0 then
      trimZeros fuel ⟨d.coefficient / 10, d.exponent + 1⟩
    else d

/-- The exponent of the leading decimal digit of `m · 2 ^ e`, for `m ≠ 0`. The first estimate is at
most one off. -/
def leadingExponent (m : Nat) (e : Int) : Int :=
  let atLeast (k : Int) : Bool :=
    decide (10 ^ k.toNat * 2 ^ (-e).toNat ≤ m * 2 ^ e.toNat * 10 ^ (-k).toNat)
  let k := (Int.ofNat (Nat.log2 m) + e) * 30103 / 100000
  if atLeast (k + 1) then k + 1 else if atLeast k then k else k - 1

/-- The decimal with the fewest digits among those that round to the floating-point number
`m · 2 ^ e`, for `m ≠ 0`; of two with as many digits the nearer one, and of two equally near the one
with an even last digit. Numbers are compared in quarters of a unit in the last place: the numbers
that round to `4 m` lie between `4 m - 2` and `4 m + 2`, or `4 m - 1` where the spacing below is half
of that above; the ends belong to them iff `m` is even. -/
def shortest (m : Nat) (e : Int) : Decimal :=
  let leading := leadingExponent m e
  let low := if m = 2 ^ Real.fractionBits ∧ -1074 < e then 4 * m - 1 else 4 * m - 2
  let high := 4 * m + 2
  let candidate (n : Nat) : Option Decimal :=
    let p := leading - n
    let grid := 10 ^ p.toNat * 2 ^ (2 - e).toNat
    let unit := 2 ^ (e - 2).toNat * 10 ^ (-p).toNat
    let below := 4 * m * unit / grid
    let inside (a : Nat) : Bool :=
      if m % 2 = 0 then decide (low * unit ≤ a * grid) && decide (a * grid ≤ high * unit)
      else decide (low * unit < a * grid) && decide (a * grid < high * unit)
    let twice := 2 * (4 * m * unit)
    let middle := (2 * below + 1) * grid
    let takesBelow := decide (twice < middle) || (decide (twice = middle) && below % 2 == 0)
    if inside below && (takesBelow || !inside (below + 1)) then some ⟨below, p⟩
    else if inside (below + 1) then some ⟨Int.ofNat (below + 1), p⟩
    else none
  match (List.range 17).findSome? candidate with
  | some d => trimZeros 17 d
  | none => ⟨m, e⟩

end Decimal

namespace Real

/-- The digits of a decimal without an exponent: zeros are added at the end or after the point. -/
def positional (digits : List Char) (exponent : Int) : List Char :=
  if 0 ≤ exponent then digits ++ List.replicate exponent.toNat '0'
  else
    let places := (-exponent).toNat
    if places < digits.length then
      digits.take (digits.length - places) ++ '.' :: digits.drop (digits.length - places)
    else '0' :: '.' :: List.replicate (places - digits.length) '0' ++ digits

/-- How a number is written: the words for what has no digits, and the text of the shortest decimal,
given by its digits and the exponent of the last. -/
structure Style where
  zero : String
  negativeZero : String
  infinite : String
  notANumber : String
  digits : List Char → Int → List Char

/-- Writes a number by its sign and the shortest decimal of its size. -/
def Style.write (style : Style) (x : Float) : String :=
  match Binary.of x with
  | .nan => style.notANumber
  | .infinite negative => if negative then "-" ++ style.infinite else style.infinite
  | .finite negative m e =>
    if m = 0 then if negative then style.negativeZero else style.zero
    else
      let d := Decimal.shortest m e
      let text := style.digits (Decimal.digitsOf d.coefficient.natAbs) d.exponent
      String.ofList (if negative then '-' :: text else text)

/-- Never with an exponent; zero has no sign. -/
def plainStyle : Style where
  zero := "0"
  negativeZero := "0"
  infinite := "Infinity"
  notANumber := "NaN"
  digits := positional

/-- With a point or an exponent always; with an exponent from `10 ^ 16` on and below `10 ^ -4`, which
then has a sign and at least two digits. -/
def pointedStyle : Style where
  zero := "0.0"
  negativeZero := "-0.0"
  infinite := "inf"
  notANumber := "nan"
  digits digits exponent :=
    let leading := exponent + digits.length - 1
    if -4 ≤ leading ∧ leading < 16 then
      if exponent < 0 then positional digits exponent else positional digits exponent ++ ['.', '0']
    else
      let size := Decimal.digitsOf leading.natAbs
      let size := if size.length < 2 then '0' :: size else size
      let mantissa := match digits with
        | first :: second :: more => first :: '.' :: second :: more
        | _ => digits
      mantissa ++ 'e' :: (if leading < 0 then '-' else '+') :: size

/-- The shortest decimal text of a number, without an exponent. -/
def plainText : Float → String := plainStyle.write

/-- The shortest decimal text of a number, which shows that it is not an integer by kind. -/
def text : Float → String := pointedStyle.write

/-- The number with the exact value of `x` rounded to `digits` significant decimal digits, a half to
the even neighbour. -/
def toSignificant (digits : Nat) (x : Float) : Float :=
  match Binary.of x with
  | .finite negative m e =>
    if m = 0 then x
    else
      let p := Decimal.leadingExponent m e - Int.ofNat digits + 1
      let kept := Decimal.divHalfEven (m * 2 ^ e.toNat * 10 ^ (-p).toNat)
        (10 ^ p.toNat * 2 ^ (-e).toNat)
      signed negative (Decimal.toFloat ⟨kept, p⟩)
  | _ => x

/-- The number written by digits before and after a point, times `10 ^ exponent`. -/
def ofDigits (whole fraction : List Char) (exponent : Int) : Float :=
  let value := (whole ++ fraction).foldl (fun n c => 10 * n + (c.toNat - '0'.toNat)) 0
  Decimal.toFloat ⟨value, exponent - fraction.length⟩

end Real

end MathExpr
