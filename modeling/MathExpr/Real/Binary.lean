import MathExpr.Failure
/-!
# Floating-point numbers, exactly

`Binary.of` takes a floating-point number apart into sign, significand and binary exponent, so that
integer parts, remainders and roundings are computed on integers and rounded once, or not at all.
`scaled` puts a number together again.
-/

namespace MathExpr.Real

attribute [local instance (2000)] instPowNat

/-- A floating-point number taken apart. A finite one has the value `± significand · 2 ^ exponent`. -/
inductive Binary where
  | finite (negative : Bool) (significand : Nat) (exponent : Int)
  | infinite (negative : Bool)
  | nan
  deriving DecidableEq, Repr

/-- The number of bits that hold the fraction. They are the lowest. -/
def fractionBits : Nat := 52

/-- The number of bits that hold the exponent. Above them is the sign. -/
def exponentBits : Nat := 11

/-- Whether the sign bit is set; so it is for `-0.0`. -/
def isNegative (x : Float) : Bool :=
  x.toBits.toNat / 2 ^ (fractionBits + exponentBits) == 1

/-- The parts of a floating-point number. -/
def Binary.of (x : Float) : Binary :=
  let bits := x.toBits.toNat
  let negative := isNegative x
  let exponent := bits / 2 ^ fractionBits % 2 ^ exponentBits
  let fraction := bits % 2 ^ fractionBits
  if exponent = 2047 then
    if fraction = 0 then .infinite negative else .nan
  else if exponent = 0 then .finite negative fraction (-1074)
  else .finite negative (fraction + 2 ^ fractionBits) (Int.ofNat exponent - 1075)

/-- The power of two `2 ^ e`, for `-1074 ≤ e ≤ 1023`. -/
def powerOfTwo (e : Int) : Float :=
  if e < -1022 then Float.ofBits (UInt64.ofNat (2 ^ (e + 1074).toNat))
  else Float.ofBits (UInt64.ofNat ((e + 1023).toNat * 2 ^ fractionBits))

/-- The floating-point number `m · 2 ^ e`, for `e ≥ -1074`. It is exact if there is one. -/
def scaled (m : Nat) (e : Int) : Float :=
  if m < 2 ^ (fractionBits + 1) then Float.ofNat m * powerOfTwo e
  else
    let extra := Nat.log2 m - fractionBits
    Float.ofNat (m / 2 ^ extra) * powerOfTwo (e + extra)

/-- The value `-x` if `negative`, else `x`. -/
def signed (negative : Bool) (x : Float) : Float :=
  if negative then -x else x

def infinity : Float := 1.0 / 0.0
def nan : Float := 0.0 / 0.0
def pi : Float := 3.141592653589793
def euler : Float := 2.718281828459045

/-- The size of `x` with the sign of `y`. -/
def copySign (x y : Float) : Float :=
  signed (isNegative y) x.abs

/-- The largest integer not above `± m · 2 ^ e`. -/
def floorOf (negative : Bool) (m : Nat) (e : Int) : Int :=
  let n : Int := if negative then -Int.ofNat m else Int.ofNat m
  if 0 ≤ e then n * 2 ^ e.toNat else n / 2 ^ (-e).toNat

/-- The integer part of `± m · 2 ^ e`, toward zero. -/
def truncOf (negative : Bool) (m : Nat) (e : Int) : Int :=
  let n : Nat := if 0 ≤ e then m * 2 ^ e.toNat else m / 2 ^ (-e).toNat
  if negative then -Int.ofNat n else Int.ofNat n

/-- The value of an integer function of the exact value of `x`, which has to be finite. -/
def exactly (f : Bool → Nat → Int → Int) (x : Float) : Except Fault Int :=
  match Binary.of x with
  | .finite negative m e => .ok (f negative m e)
  | .infinite _ => .error .overflow
  | .nan => .error .outsideDomain

/-- The largest integer not above `x`. -/
def floorInt (x : Float) : Except Fault Int :=
  exactly floorOf x

/-- The smallest integer not below `x`. -/
def ceilInt (x : Float) : Except Fault Int :=
  exactly (fun negative m e => -floorOf (!negative) m e) x

/-- The integer part of `x`, toward zero. -/
def truncInt (x : Float) : Except Fault Int :=
  exactly truncOf x

/-- The floating-point number nearest to an integer function of `x`; `x` itself if not finite. -/
def rounded (f : Float → Except Fault Int) (x : Float) : Float :=
  match f x with
  | .ok n => Float.ofInt n
  | .error _ => x

def floor : Float → Float := rounded floorInt
def ceil : Float → Float := rounded ceilInt
def trunc : Float → Float := rounded truncInt

/-- The part of `x` after the point, with the sign of `x`. -/
def fract (x : Float) : Float :=
  if x.isFinite then x - trunc x else nan

/-- The nearest integer; a half goes up. -/
def roundHalfUp (x : Float) : Float :=
  if x.isFinite then floor (x + 0.5) else x

/-- Whether `x` is an integer. -/
def isInteger (x : Float) : Bool :=
  match Binary.of x with
  | .finite _ m e => decide (0 ≤ e) || m % 2 ^ (-e).toNat == 0
  | _ => false

/-- Whether `x` is an odd integer. -/
def isOddInteger (x : Float) : Bool :=
  match truncInt x with
  | .ok n => isInteger x && n % 2 == 1
  | .error _ => false

/-- The remainder of `x` by `y` with the sign of `x`, which is always exact. -/
def remainder (x y : Float) : Except Fault Float :=
  match Binary.of x, Binary.of y with
  | .nan, _ | _, .nan => .ok nan
  | .infinite _, _ => .error .outsideDomain
  | .finite .., .infinite _ => .ok x
  | .finite negative m e, .finite _ n f =>
    if n = 0 then .error .outsideDomain
    else
      let low := min e f
      let r := m * 2 ^ (e - low).toNat % (n * 2 ^ (f - low).toNat)
      .ok (signed negative (scaled r low))

/-- The sign of `x`: one, minus one or zero. -/
def sign (x : Float) : Float :=
  if x.isNaN then nan else if x == 0.0 then 0.0 else copySign 1.0 x

end MathExpr.Real
