import MathExpr.Number.Functions
/-!
# Rounding

Rounding to decimal places and to significant figures. A value less than `1e-9` below a half is rounded
up all the same, which absorbs the error of a decimal fraction that has no exact floating-point number;
the digits are then put together as decimals and rounded once.
-/

namespace MathExpr

/-- A number of decimal places or significant figures: an integer given as one, or a number. -/
inductive Places where
  | whole (n : Int)
  | real (x : Float)
  deriving DecidableEq

namespace Places

/-- The places as a number. -/
def toFloat : Places → Float
  | whole n => Float.ofInt n
  | real x => x

/-- `10 ^ places`, which must not overflow. -/
def scale : Places → Except Fault Float
  | whole n =>
    if 0 ≤ n then
      let x := Float.ofScientific 1 false n.toNat
      if x.isInf then .error .overflow else .ok x
    else .ok (Float.pow 10.0 (Float.ofInt n))
  | real x =>
    let y := Float.pow 10.0 x
    if y.isInf && x.isFinite then .error .overflow else .ok y

/-- The integer that the places are, if they are one. -/
def toInt? : Places → Option Int
  | whole n => some n
  | real x =>
    if Real.isInteger x then
      match Real.truncInt x with
      | .ok n => some n
      | .error _ => none
    else none

/-- The places less an integer. -/
def subInt : Places → Int → Places
  | whole n, k => whole (n - k)
  | real x, k => real (x - Float.ofInt k)

/-- One half of the smallest step that the places can show, to be added to a value below a half. -/
def nudge (p : Places) (scale : Float) : Float :=
  match p with
  | whole n => if 0 ≤ n then Float.ofScientific 1 true (n.toNat + 1) else 1.0 / (scale * 10.0)
  | real _ => 1.0 / (scale * 10.0)

/-- `whole + digits · 10 ^ -places`, summed as decimals and rounded once. -/
def assemble (p : Places) (digits whole : Float) : Except Fault Float :=
  match p.toInt? with
  | some n => do
    let whole := Decimal.ofInt (← Real.truncInt whole)
    let part ← Decimal.shift (Decimal.ofInt (← Real.truncInt digits)) (-n)
    return (Decimal.add whole part).toFloat
  | none => do
    let scale ← p.scale
    if scale == 0.0 then .error .divisionByZero else return whole + digits / scale

end Places

namespace Number

/-- Whether the digit `d` and what follows it, `v`, are a half or just below one. -/
def isNearHalf (d : Int) (v : Float) : Bool :=
  (d == 4 && 1.0 - v < 1e-9) || (d == -5 && (-1e-9 : Float) < v && v < 0.0)

/-- The integer part toward zero of `x`, whose sign is that of `sign`. -/
def leadingDigit (sign x : Float) : Except Fault Int :=
  if sign > 0.0 then Real.floorInt x else Real.ceilInt x

/-- A real number rounded to decimal places. -/
def roundPlacesReal (a : Float) (p : Places) : Except Fault Float := do
  if !a.isFinite then return a
  let scale ← p.scale
  let part ← Real.remainder a 1.0
  let whole := a - part
  let v ← Real.remainder (part * scale * 10.0) 1.0
  let d ← leadingDigit part (← Real.remainder (part * scale * 10.0) 10.0)
  let part := part * scale
  let part := if isNearHalf d v then part + 1.0 else part
  p.assemble (Real.roundHalfUp part) whole

/-- The remainder, or not a number where there is none. -/
def remainderOrNaN (x y : Float) : Float :=
  if y == 0.0 || !x.isFinite then Real.nan
  else
    match Real.remainder x y with
    | .ok r => r
    | .error _ => Real.nan

/-- A real number rounded to significant figures. -/
def roundFiguresReal (a : Float) (p : Places) : Except Fault Float := do
  if a == 0.0 || !a.isFinite then return a
  let places := p.subInt (← Real.ceilInt (Real.sign a * a).log10)
  let scale ← places.scale
  let v := remainderOrNaN (a * scale * 10.0) 1.0
  let d ← leadingDigit a (remainderOrNaN (a * scale * 10.0) 10.0)
  let a := if isNearHalf d v then a + places.nudge scale else a
  places.assemble (Real.roundHalfUp (a * scale)) 0.0

/-- The value of a rounding on each part. -/
def roundParts (f : Float → Places → Except Fault Float) (a : Number) (p : Places) :
    Except Fault Number :=
  match a with
  | real x => return real (← f x p)
  | complex z => do
    let re ← f z.re p
    return complex ⟨re, ← f z.im p⟩

/-- A number rounded to decimal places. -/
def roundPlaces : Number → Places → Except Fault Number := roundParts roundPlacesReal

/-- A number rounded to significant figures. -/
def roundFigures : Number → Places → Except Fault Number := roundParts roundFiguresReal

def ceil : Number → Number := mapParts Real.ceil
def floor : Number → Number := mapParts Real.floor
def trunc : Number → Number := mapParts Real.trunc
def fract : Number → Number := mapParts Real.fract
def round : Number → Number := mapParts Real.roundHalfUp
def sign : Number → Number := mapParts Real.sign

/-! ## Multiples of powers of pi -/

/-- The powers of pi up to the twelfth. No larger ones are looked at. -/
def powersOfPi : List Float :=
  [1.0, 3.141592653589793, 9.869604401089358, 31.006276680299816, 97.40909103400242,
    306.0196847852814, 961.3891935753043, 3020.2932277767914, 9488.53101607057, 29809.0993334462,
    93648.04747608298, 294204.01797389047, 924269.1815233737]

/-- A power of pi. -/
def powerOfPi (degree : Nat) : Float :=
  powersOfPi.getD degree (Real.pi.pow (Float.ofNat degree))

/-- The first exponent for which `n` divided by that power of pi is at most one, or is within `1e-8`
of an integer. Numbers looked at are at most ten thousand, so exponents below twelve suffice. -/
def piExponent (n : Float) : Option Nat :=
  (List.range' 1 12).find? fun degree =>
    let a := n / powerOfPi degree
    !(a > 1.0 && (a - Real.roundHalfUp a).abs > 1e-8)

/-- The power of pi that `n` is an integer multiple of, zero if there is none. Large numbers would be
close to a multiple by accident. -/
def piDegree (n : Float) : Nat :=
  let n := n.abs
  if n > 10000.0 || n == 0.0 || !n.isFinite then 0
  else
    match piExponent n with
    | some degree => if n / powerOfPi degree ≥ 1.0 then degree else 0
    | none => 0

end Number

end MathExpr
