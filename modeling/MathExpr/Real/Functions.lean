import MathExpr.Real.Decimal
/-!
# Real functions

Functions on floating-point numbers that the core library does not have: the length of a vector in the
plane, correctly rounded; logarithms near one; the gamma function. `tame` is for functions whose
undefined and overflowing results count as not a number.
-/

namespace MathExpr.Real

attribute [local instance (2000)] instPowNat

/-- The floor of the square root. -/
def sqrtNat (n : Nat) : Nat :=
  if n < 2 then n
  else
    let r := 2 * sqrtNat (n / 4)
    if (r + 1) * (r + 1) ≤ n then r + 1 else r
termination_by n

/-- The floating-point number nearest to `m · 2 ^ e`. -/
def nearest (m : Nat) (e : Int) : Float :=
  if 0 ≤ e then Float.ofScientific (m * 2 ^ e.toNat) false 0
  else Float.ofScientific (m * 5 ^ e.natAbs) true e.natAbs

/-- The distance of `(x, y)` from the origin, correctly rounded. -/
def hypot (x y : Float) : Float :=
  match Binary.of x, Binary.of y with
  | .infinite _, _ | _, .infinite _ => infinity
  | .nan, _ | _, .nan => nan
  | .finite _ m e, .finite _ n f =>
    let low := min e f
    let a := m * 2 ^ (e - low).toNat
    let b := n * 2 ^ (f - low).toNat
    let square := a * a + b * b
    -- sixty-four more bits than the result needs, and one that says whether something is left
    let extra : Nat := 64
    let root := sqrtNat (square * 4 ^ extra)
    let rest := if root * root = square * 4 ^ extra then 0 else 1
    nearest (2 * root + rest) (low - extra - 1)

/-- The logarithm of `1 + x`, accurate where `x` is small. -/
def log1p (x : Float) : Float :=
  let u := 1.0 + x
  if u.isFinite && !(u == 0.0) then u.log - ((u - 1.0) - x) / u else u.log

/-- The value of `f`, or not a number where `f` is undefined or overflows. -/
def tame (f : Float → Float) (x : Float) : Float :=
  let y := f x
  if y.isInf && x.isFinite then nan else y

/-- The sine of `π x`. -/
def sinPi (x : Float) : Float :=
  match remainder x.abs 2.0 with
  | .error _ => nan
  | .ok y =>
    let quarter := (2.0 * y).round
    let s :=
      if quarter == 0.0 then (pi * y).sin
      else if quarter == 1.0 then (pi * (y - 0.5)).cos
      else if quarter == 2.0 then (pi * (1.0 - y)).sin
      else if quarter == 3.0 then -(pi * (y - 1.5)).cos
      else (pi * (y - 2.0)).sin
    copySign 1.0 x * s

/-- The coefficients of the numerator of the gamma series, lowest power first. -/
def gammaNumerator : List Float := [
  23531376880.410759688572007674451636754734846804940,
  42919803642.649098768957899047001988850926355848959,
  35711959237.355668049440185451547166705960488635843,
  17921034426.037209699919755754458931112671403265390,
  6039542586.3520280050642916443072979210699388420708,
  1439720407.3117216736632230727949123939715485786372,
  248874557.86205415651146038641322942321632125127801,
  31426415.585400194380614231628318205362874684987640,
  2876370.6289353724412254090516208496135991145378768,
  186056.26539522349504029498971604569928220784236328,
  8071.6720023658162106380029022722506138218516325024,
  210.82427775157934587250973392071336271166969580291,
  2.5066282746310002701649081771338373386264310793408]

/-- The coefficients of the denominator, those of `x (x + 1) … (x + 11)`. -/
def gammaDenominator : List Float := [
  0.0, 39916800.0, 120543840.0, 150917976.0, 105258076.0, 45995730.0, 13339535.0, 2637558.0,
  357423.0, 32670.0, 1925.0, 66.0, 1.0]

/-- The quotient of the two polynomials, in powers of `1 / x` where `x` is large. -/
def gammaSeries (x : Float) : Float :=
  if x < 5.0 then
    gammaNumerator.foldr (fun c s => s * x + c) 0.0 / gammaDenominator.foldr (fun c s => s * x + c) 0.0
  else
    gammaNumerator.foldl (fun s c => s / x + c) 0.0 / gammaDenominator.foldl (fun s c => s / x + c) 0.0

/-- The shift of the gamma series. -/
def gammaShift : Float := 6.024680040776729583740234375

/-- The product of the first `n` positive integers. -/
def factorialNat : Nat → Nat
  | 0 => 1
  | n + 1 => (n + 1) * factorialNat n

/-- The gamma function where it is neither tiny nor huge, by its series. -/
def gammaBySeries (x : Float) : Float :=
  let size := x.abs
  let shift := gammaShift - 0.5
  let y := size + shift
  let slack := if size > shift then (y - size) - shift else (y - shift) - size
  let z := slack * gammaShift / y
  if x < 0.0 then
    let r := -pi / sinPi size / size * y.exp / gammaSeries size
    let r := r - z * r
    if size < 140.0 then r / y.pow (size - 0.5)
    else
      let p := y.pow (size / 2.0 - 0.25)
      r / p / p
  else
    let r := gammaSeries size / y.exp
    let r := r + z * r
    if size < 140.0 then r * y.pow (size - 0.5)
    else
      let p := y.pow (size / 2.0 - 0.25)
      r * p * p

/-- The gamma function. It is not defined at minus infinity and at zero and the negative integers, and
infinite where it is too large for a number. -/
def gamma (x : Float) : Except Fault Float :=
  if x.isNaN then .ok nan
  else if x == infinity then .ok infinity
  else if !x.isFinite || (isInteger x && x ≤ 0.0) then .error .outsideDomain
  else if isInteger x && x ≤ 23.0 then
    match truncInt x with
    | .ok n => .ok (Float.ofNat (factorialNat (n.toNat - 1)))
    | .error f => .error f
  else
    let r :=
      if x.abs < 1e-20 then 1.0 / x
      else if x.abs > 200.0 then if x < 0.0 then 0.0 / sinPi x else infinity
      else gammaBySeries x
    .ok (if r.isInf then infinity else r)

end MathExpr.Real
