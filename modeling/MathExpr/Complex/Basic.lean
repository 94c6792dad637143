import MathExpr.Real.Functions
/-!
# Complex numbers

Complex numbers with floating-point parts, their arithmetic and their size. A quotient is scaled by
the larger part of the divisor; a power with a small integer exponent multiplies by repeated squaring.
-/

namespace MathExpr

/-- The complex number `re + im · i`. -/
structure Complex where
  re : Float
  im : Float
  deriving DecidableEq

namespace Complex

/-- A real number as a complex one. -/
def ofReal (x : Float) : Complex := ⟨x, 0.0⟩

/-- The imaginary unit. -/
def i : Complex := ⟨0.0, 1.0⟩

/-- A number none of whose parts is a number. -/
def undefined : Complex := ⟨Real.nan, Real.nan⟩

def add (a b : Complex) : Complex := ⟨a.re + b.re, a.im + b.im⟩
def sub (a b : Complex) : Complex := ⟨a.re - b.re, a.im - b.im⟩
def neg (a : Complex) : Complex := ⟨-a.re, -a.im⟩
def conj (a : Complex) : Complex := ⟨a.re, -a.im⟩
def mul (a b : Complex) : Complex := ⟨a.re * b.re - a.im * b.im, a.re * b.im + a.im * b.re⟩

/-- Whether both parts are zero. -/
def isZero (a : Complex) : Bool := a.re == 0.0 && a.im == 0.0

/-- The quotient, which is undefined for the divisor zero. -/
def div (a b : Complex) : Except Fault Complex :=
  if b.re.abs ≥ b.im.abs then
    if b.re.abs == 0.0 then .error .divisionByZero
    else
      let ratio := b.im / b.re
      let denominator := b.re + b.im * ratio
      .ok ⟨(a.re + a.im * ratio) / denominator, (a.im - a.re * ratio) / denominator⟩
  else if b.im.abs ≥ b.re.abs then
    let ratio := b.re / b.im
    let denominator := b.re * ratio + b.im
    .ok ⟨(a.re * ratio + a.im) / denominator, (a.im * ratio - a.re) / denominator⟩
  else .ok undefined

/-- The size, which has to be a number if both parts are. -/
def abs (a : Complex) : Except Fault Float :=
  let size := Real.hypot a.re a.im
  if a.re.isFinite && a.im.isFinite && !size.isFinite then .error .overflow else .ok size

/-- `acc` times `base` to the power `n`, by repeated squaring. -/
def powNatFrom (acc base : Complex) (n : Nat) : Complex :=
  if n = 0 then acc
  else powNatFrom (if n % 2 = 1 then mul acc base else acc) (mul base base) (n / 2)
termination_by n

/-- The power with a natural exponent. -/
def powNat (a : Complex) (n : Nat) : Complex :=
  powNatFrom ⟨1.0, 0.0⟩ a n

/-- The power with an integer exponent; a negative one takes the reciprocal of the power. -/
def powInt (a : Complex) (n : Int) : Except Fault Complex :=
  if 0 < n then .ok (powNat a n.toNat) else div ⟨1.0, 0.0⟩ (powNat a n.natAbs)

/-- The power by size and angle. There is none where the angle of the result is infinite, nor for zero with
an exponent that is not a positive number. -/
def powPolar (a b : Complex) : Except Fault Complex :=
  if b.isZero then .ok ⟨1.0, 0.0⟩
  else if a.isZero then
    if !(b.im == 0.0) || b.re < 0.0 then .error .divisionByZero else .ok ⟨0.0, 0.0⟩
  else
    let size := Real.hypot a.re a.im
    let angle := Float.atan2 a.im a.re
    let length := size.pow b.re
    let phase := angle * b.re
    let (length, phase) :=
      if b.im == 0.0 then (length, phase)
      else (length * (-angle * b.im).exp, phase + b.im * size.log)
    if phase.isInf then .error .divisionByZero
    else .ok ⟨length * phase.cos, length * phase.sin⟩

/-- A result without an infinite part. -/
def finiteParts (z : Complex) : Except Fault Complex :=
  if z.re.isInf || z.im.isInf then .error .overflow else .ok z

/-- The power, by multiplication if the exponent is an integer of size at most one hundred. -/
def pow (a b : Complex) : Except Fault Complex := do
  let small := b.im == 0.0 && Real.isInteger b.re && b.re.abs ≤ 100.0
  let z ← if small then do powInt a (← Real.truncInt b.re) else powPolar a b
  finiteParts z

end Complex

end MathExpr
