import MathExpr.Complex.Functions
/-!
# Numbers

A number is real or complex. A result stays complex even where its imaginary part is zero; a real
number takes part in complex arithmetic with imaginary part zero.
-/

namespace MathExpr

/-- A real or complex number. -/
inductive Number where
  | real (x : Float)
  | complex (z : Complex)
  deriving DecidableEq

namespace Number

/-- The number `n`, as nearly as a floating-point number can be. -/
def ofNat (n : Nat) : Number := real (Float.ofNat n)

/-- The real part. -/
def re : Number → Float
  | real x => x
  | complex z => z.re

/-- The imaginary part, zero for a real number. -/
def im : Number → Float
  | real _ => 0.0
  | complex z => z.im

/-- The same number as a complex one. -/
def toComplex : Number → Complex
  | real x => Complex.ofReal x
  | complex z => z

def isComplex : Number → Bool
  | real _ => false
  | complex _ => true

/-- Whether the number is an integer: both of its parts, the imaginary one being zero. -/
def isInteger (a : Number) : Bool :=
  a.im == 0.0 && Real.isInteger a.re

/-- Whether a part of the number is not a number. -/
def isNaN (a : Number) : Bool :=
  a.re.isNaN || a.im.isNaN

/-- Whether the number is real and infinite. -/
def isInfinite : Number → Bool
  | real x => x.isInf
  | complex _ => false

/-- Whether both parts are zero. -/
def isZero (a : Number) : Bool :=
  a.re == 0.0 && a.im == 0.0

/-- Equality of both parts, so that a real number can equal a complex one. -/
def eq (a b : Number) : Bool :=
  a.re == b.re && a.im == b.im

/-- The value of a function of real numbers on each part. -/
def mapParts (f : Float → Float) : Number → Number
  | real x => real (f x)
  | complex z => complex ⟨f z.re, f z.im⟩

/-- Real arithmetic on two real numbers, complex arithmetic otherwise. -/
def lift (f : Float → Float → Float) (g : Complex → Complex → Complex) : Number → Number → Number
  | real x, real y => real (f x y)
  | a, b => complex (g a.toComplex b.toComplex)

def add : Number → Number → Number := lift (· + ·) Complex.add
def sub : Number → Number → Number := lift (· - ·) Complex.sub
def mul : Number → Number → Number := lift (· * ·) Complex.mul

def neg : Number → Number
  | real x => real (-x)
  | complex z => complex z.neg

def conj : Number → Number
  | real x => real x
  | complex z => complex z.conj

/-- The quotient. A real quotient by zero is an infinity with the sign of the quotient, or not a number;
a complex quotient by zero is undefined in both parts. -/
def div : Number → Number → Number
  | real x, real y => real (x / y)
  | a, b =>
    if b.isZero then complex Complex.undefined
    else
      match Complex.div a.toComplex b.toComplex with
      | .ok z => complex z
      | .error _ => complex Complex.undefined

/-- The size, which has to be a number if both parts are. -/
def abs : Number → Except Fault Float
  | real x => .ok x.abs
  | complex z => z.abs

/-- The angle. -/
def arg : Number → Float
  | real x => Float.atan2 0.0 x
  | complex z => Float.atan2 z.im z.re

/-! ## Order -/

/-- A number that has to be real, to be ordered. -/
def ordered : Number → Outcome Float
  | real x => .ok x
  | complex _ => .error (.error .complexOrder)

/-- A comparison of two real numbers. -/
def compareWith (f : Float → Float → Bool) (a b : Number) : Outcome Bool :=
  return f (← ordered a) (← ordered b)

def lt : Number → Number → Outcome Bool := compareWith fun x y => x < y
def gt : Number → Number → Outcome Bool := compareWith fun x y => x > y
def le : Number → Number → Outcome Bool := compareWith fun x y => x ≤ y
def ge : Number → Number → Outcome Bool := compareWith fun x y => x ≥ y

/-- The larger of two real numbers: the first unless the second is above it. -/
def max (a b : Number) : Outcome Number := do
  let x ← ordered a
  let y ← ordered b
  return real (if y > x then y else x)

/-- The smaller of two real numbers: the first unless the second is below it. -/
def min (a b : Number) : Outcome Number := do
  let x ← ordered a
  let y ← ordered b
  return real (if y < x then y else x)

/-- A number used where only a real one has a meaning: its real part, if the imaginary part is
zero. -/
def realAt (place : String) (a : Number) : Outcome Float :=
  if a.isComplex && !(a.im == 0.0) then .error (.error (.complexNotAllowed place)) else .ok a.re

end Number

end MathExpr
