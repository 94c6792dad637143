import MathExpr.Number.Basic
/-!
# Elementary functions

Powers, roots, exponentials and logarithms, the trigonometric and hyperbolic functions and their
inverses. A real argument outside the real domain gives a complex value where there is one; a real
value that is undefined or overflows is not a number.
-/

namespace MathExpr.Number

/-- The power of a complex number that is not zero, by multiplication for small integer exponents. -/
def powComplex (a b : Complex) : Except Fault Complex :=
  if a.isZero then .ok (if b.re > 0.0 then ⟨0.0, 0.0⟩ else ⟨Real.infinity, 0.0⟩)
  else if b.im == 0.0 && Real.isInteger b.re && b.re.abs < 100.0 then Complex.pow a b
  else do Complex.exp (Complex.mul b (← Complex.log a))

/-- The power of real numbers whose value is real. Zero with a negative exponent is infinite, with the
sign of the zero if the exponent is odd. -/
def powReal (x y : Float) : Float :=
  if x == 0.0 && y < 0.0 then
    if Real.isOddInteger y then Real.copySign Real.infinity x else Real.infinity
  else x.pow y

/-- The power, which goes complex only where it has to. -/
def pow : Number → Number → Except Fault Number
  | real x, real y =>
    if x < 0.0 && !Real.isInteger y then
      return complex (← powComplex (Complex.ofReal x) (Complex.ofReal y))
    else .ok (real (powReal x y))
  | a, b => return complex (← powComplex a.toComplex b.toComplex)

/-- The root of `a` with exponent `b`. -/
def root (a b : Number) : Except Fault Number :=
  pow a (div (real 1.0) b)

/-- The square root. -/
def sqrt : Number → Number
  | real x => if x < 0.0 then complex ⟨0.0, (-x).sqrt⟩ else real x.sqrt
  | complex z => complex z.sqrt

/-- The natural logarithm; that of zero is minus infinity. -/
def ln : Number → Except Fault Number
  | real x =>
    if x == 0.0 then .ok (real (-Real.infinity))
    else if x < 0.0 then .ok (complex ⟨(-x).log, Real.pi⟩)
    else .ok (real x.log)
  | complex z =>
    if z.isZero then .ok (real (-Real.infinity)) else return complex (← z.log)

/-- The logarithm to base ten. -/
def log (a : Number) : Except Fault Number :=
  return div (← ln a) (real (Float.log 10.0))

/-- The logarithm of `a` to base `b`. -/
def logBase (a b : Number) : Except Fault Number := do
  let x ← ln a
  return div x (← ln b)

/-- The exponential function. -/
def exp : Number → Except Fault Number
  | real x => .ok (real x.exp)
  | complex z => return complex (← z.exp)

/-- A function with a real and a complex form. -/
def both (f : Float → Float) (g : Complex → Except Fault Complex) : Number → Except Fault Number
  | real x => .ok (real (Real.tame f x))
  | complex z => return complex (← g z)

def sin : Number → Except Fault Number := both Float.sin Complex.sin
def cos : Number → Except Fault Number := both Float.cos Complex.cos
def tan : Number → Except Fault Number := both Float.tan Complex.tan
def arctan : Number → Except Fault Number := both Float.atan Complex.atan
def sinh : Number → Except Fault Number := both Float.sinh Complex.sinh
def cosh : Number → Except Fault Number := both Float.cosh Complex.cosh
def tanh : Number → Except Fault Number := both Float.tanh Complex.tanh
def arcsinh : Number → Except Fault Number := both Float.asinh fun z => .ok z.asinh

/-- The reciprocal of a value. -/
def reciprocal (f : Number → Except Fault Number) (a : Number) : Except Fault Number :=
  return div (real 1.0) (← f a)

def cosec : Number → Except Fault Number := reciprocal sin
def sec : Number → Except Fault Number := reciprocal cos
def cot : Number → Except Fault Number := reciprocal tan
def cosech : Number → Except Fault Number := reciprocal sinh
def sech : Number → Except Fault Number := reciprocal cosh
def coth : Number → Except Fault Number := reciprocal tanh

def arcsin : Number → Number
  | real x => if x.abs > 1.0 then complex (Complex.ofReal x).asin else real x.asin
  | complex z => complex z.asin

def arccos : Number → Number
  | real x => if x.abs > 1.0 then complex (Complex.ofReal x).acos else real x.acos
  | complex z => complex z.acos

def arccosh : Number → Number
  | real x => if x < 1.0 then complex (Complex.ofReal x).acosh else real x.acosh
  | complex z => complex z.acosh

def arctanh : Number → Except Fault Number
  | real x =>
    if x.abs > 1.0 then return complex (← (Complex.ofReal x).atanh)
    else if x.abs == 1.0 then .ok (real (Real.copySign Real.infinity x))
    else .ok (real x.atanh)
  | complex z => return complex (← z.atanh)

/-- An angle in degrees, from radians. -/
def degrees (a : Number) : Number := mul a (real (180.0 / Real.pi))

/-- An angle in radians, from degrees. -/
def radians (a : Number) : Number := mul a (real (Real.pi / 180.0))

/-- The gamma function; not a number at zero and the negative integers. -/
def gamma : Number → Except Fault Number
  | real x =>
    if Real.isInteger x && x ≤ 0.0 then .ok (real Real.nan) else return real (← Real.gamma x)
  | complex z => return complex (← z.gamma)

/-- The factorial of a natural number, by the gamma function of the successor elsewhere. It is infinite
from 171 on. -/
def factorial (a : Number) : Except Fault Number :=
  if a.isInteger && a.re ≥ 0.0 then do
    let n ← Real.truncInt a.re
    return if 170 < n then real Real.infinity
      else real (Float.ofNat (Real.factorialNat n.toNat))
  else gamma (add a (real 1.0))

end MathExpr.Number
