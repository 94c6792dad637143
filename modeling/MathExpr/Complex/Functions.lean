import MathExpr.Complex.Basic
/-!
# Complex functions

The elementary functions of a complex number. Each has a rule for arguments with an infinite or
undefined part, which keeps the signs of zeros, and a formula that avoids overflow for large parts.
The trigonometric functions are the hyperbolic ones on the number turned by a right angle.
-/

namespace MathExpr.Complex

def ln2 : Float := 0.6931471805599453
def halfPi : Float := 1.5707963267948966

/-- Above this size a part may overflow in a sum of squares. -/
def large : Float := 4.49423283715579e307
/-- Above this size a part overflows when squared. -/
def largeRoot : Float := 6.703903964971298e153
/-- Above this size a part overflows in the exponential function. -/
def largeLog : Float := 708.3964185322641
/-- The smallest number with full precision. -/
def smallestNormal : Float := 2.2250738585072014e-308
/-- The square root of `smallestNormal`. -/
def smallestRoot : Float := 1.4916681462400413e-154

/-- Whether both parts are finite. -/
def isFinite (z : Complex) : Bool := z.re.isFinite && z.im.isFinite

/-- Whether a part is infinite. -/
def hasInfinite (z : Complex) : Bool := z.re.isInf || z.im.isInf

/-- The number turned by a right angle: `z · i`. -/
def turn (z : Complex) : Complex := ⟨-z.im, z.re⟩

/-- The number turned back: `-z · i`. -/
def turnBack (z : Complex) : Complex := ⟨z.im, -z.re⟩

/-- The logarithm of the size of a number too large to be squared. -/
def logLarge (z : Complex) : Float :=
  (Real.hypot (z.re / 2.0) (z.im / 2.0)).log + ln2 * 2.0

/-- Whether a part is too large to be squared. -/
def isLarge (z : Complex) : Bool := z.re.abs > large || z.im.abs > large

/-- The square root with a real part that is not negative. -/
def sqrt (z : Complex) : Complex :=
  if z.im.isInf then ⟨Real.infinity, z.im⟩
  else if z.re.isInf then
    if z.re > 0.0 then
      ⟨Real.infinity, if z.im.isNaN then Real.nan else Real.copySign 0.0 z.im⟩
    else if z.im.isNaN then ⟨Real.nan, Real.infinity⟩
    else ⟨0.0, Real.copySign Real.infinity z.im⟩
  else if !z.isFinite then undefined
  else if z.isZero then ⟨0.0, z.im⟩
  else
    let a := z.re.abs
    let b := z.im.abs
    let s :=
      if a < smallestNormal && b < smallestNormal then
        let up := Real.powerOfTwo 53
        let a := a * up
        (a + Real.hypot a (b * up)).sqrt * Real.powerOfTwo (-27)
      else
        let a := a / 8.0
        2.0 * (a + Real.hypot a (b / 8.0)).sqrt
    let d := b / (2.0 * s)
    if z.re ≥ 0.0 then ⟨s, Real.copySign d z.im⟩ else ⟨d, Real.copySign s z.im⟩

/-- The logarithm of a number that is not zero. -/
def log (z : Complex) : Except Fault Complex :=
  let angle := Float.atan2 z.im z.re
  if !z.isFinite then
    .ok ⟨if z.hasInfinite then Real.infinity else Real.nan, angle⟩
  else
    let a := z.re.abs
    let b := z.im.abs
    if a > large || b > large then
      .ok ⟨(Real.hypot (a / 2.0) (b / 2.0)).log + ln2, angle⟩
    else if a < smallestNormal && b < smallestNormal then
      if z.isZero then .error .outsideDomain
      else
        let up := Real.powerOfTwo 53
        .ok ⟨(Real.hypot (a * up) (b * up)).log - 53.0 * ln2, angle⟩
    else
      let size := Real.hypot a b
      if 0.71 ≤ size && size ≤ 1.73 then
        let most := if a > b then a else b
        let least := if a > b then b else a
        .ok ⟨Real.log1p ((most - 1.0) * (most + 1.0) + least * least) / 2.0, angle⟩
      else .ok ⟨size.log, angle⟩

/-- The part `x` kept where it is zero, and not a number elsewhere. -/
def zeroOrNaN (x : Float) : Float := if x == 0.0 then x else Real.nan

/-- The exponential function. -/
def exp (z : Complex) : Except Fault Complex :=
  if !z.isFinite then
    if z.re.isInf && z.im.isFinite && !(z.im == 0.0) then
      let size := if z.re > 0.0 then Real.infinity else 0.0
      .ok ⟨Real.copySign size z.im.cos, Real.copySign size z.im.sin⟩
    else if z.im.isInf && (z.re.isFinite || (z.re.isInf && z.re > 0.0)) then .error .outsideDomain
    else if z.re.isInf then
      if z.re > 0.0 then .ok ⟨Real.infinity, zeroOrNaN z.im⟩
      else .ok ⟨0.0, if z.im == 0.0 then z.im else 0.0⟩
    else if z.re.isNaN then .ok ⟨Real.nan, zeroOrNaN z.im⟩
    else .ok undefined
  else if z.re > largeLog then
    let size := (z.re - 1.0).exp
    finiteParts ⟨size * z.im.cos * Real.euler, size * z.im.sin * Real.euler⟩
  else
    let size := z.re.exp
    finiteParts ⟨size * z.im.cos, size * z.im.sin⟩

/-- The hyperbolic sine. -/
def sinh (z : Complex) : Except Fault Complex :=
  if !z.isFinite then
    if z.re.isInf && z.im.isFinite && !(z.im == 0.0) then
      .ok ⟨Real.copySign z.re.abs z.im.cos * Real.sign z.re,
        Real.copySign Real.infinity z.im.sin⟩
    else if z.im.isInf && !z.re.isNaN then .error .outsideDomain
    else if z.re.isNaN then .ok ⟨Real.nan, zeroOrNaN z.im⟩
    else if z.re.isInf then
      .ok ⟨if z.im.isNaN then Real.infinity else z.re, zeroOrNaN z.im⟩
    else .ok ⟨if z.re == 0.0 then 0.0 else Real.nan, Real.nan⟩
  else if z.re.abs > largeLog then
    let x := z.re - Real.copySign 1.0 z.re
    finiteParts ⟨z.im.cos * x.sinh * Real.euler, z.im.sin * x.cosh * Real.euler⟩
  else finiteParts ⟨z.im.cos * z.re.sinh, z.im.sin * z.re.cosh⟩

/-- The hyperbolic cosine. -/
def cosh (z : Complex) : Except Fault Complex :=
  if !z.isFinite then
    if z.re.isInf && z.im.isFinite && !(z.im == 0.0) then
      .ok ⟨Real.copySign Real.infinity z.im.cos,
        Real.copySign Real.infinity z.im.sin * Real.sign z.re⟩
    else if z.im.isInf && !z.re.isNaN then .error .outsideDomain
    else if z.re.isNaN then .ok ⟨Real.nan, if z.im == 0.0 then 0.0 else Real.nan⟩
    else if z.re.isInf then
      .ok ⟨Real.infinity,
        if z.im.isNaN then Real.nan else if z.re > 0.0 then z.im else -z.im⟩
    else .ok ⟨Real.nan, if z.re == 0.0 then 0.0 else Real.nan⟩
  else if z.re.abs > largeLog then
    let x := z.re - Real.copySign 1.0 z.re
    finiteParts ⟨z.im.cos * x.cosh * Real.euler, z.im.sin * x.sinh * Real.euler⟩
  else finiteParts ⟨z.im.cos * z.re.cosh, z.im.sin * z.re.sinh⟩

/-- The hyperbolic tangent. -/
def tanh (z : Complex) : Except Fault Complex :=
  if !z.isFinite then
    if z.re.isInf && z.im.isFinite && !(z.im == 0.0) then
      .ok ⟨Real.sign z.re, Real.copySign 0.0 (2.0 * z.im.sin * z.im.cos)⟩
    else if z.im.isInf && z.re.isFinite then .error .outsideDomain
    else if z.re.isInf then .ok ⟨Real.sign z.re, if z.im == 0.0 then z.im else 0.0⟩
    else if z.re.isNaN then .ok ⟨Real.nan, zeroOrNaN z.im⟩
    else .ok undefined
  else if z.re.abs > largeLog then
    .ok ⟨Real.copySign 1.0 z.re, 4.0 * z.im.sin * z.im.cos * (-2.0 * z.re.abs).exp⟩
  else
    let x := z.re.tanh
    let y := z.im.tan
    let c := 1.0 / z.re.cosh
    let xy := x * y
    let d := 1.0 + xy * xy
    .ok ⟨x * (1.0 + y * y) / d, ((y / d) * c) * c⟩

/-- The inverse hyperbolic sine. -/
def asinh (z : Complex) : Complex :=
  if !z.isFinite then
    ⟨if z.hasInfinite then
        if z.re.isNaN then Real.infinity else Real.copySign Real.infinity z.re
      else Real.nan,
      if z.re.isNaN then zeroOrNaN z.im else Float.atan2 z.im z.re.abs⟩
  else if z.isLarge then
    ⟨Real.copySign z.logLarge z.re, Float.atan2 z.im z.re.abs⟩
  else
    let s := sqrt ⟨1.0 + z.im, -z.re⟩
    let t := sqrt ⟨1.0 - z.im, z.re⟩
    ⟨(s.re * t.im - t.re * s.im).asinh, Float.atan2 z.im (s.re * t.re - s.im * t.im)⟩

/-- The inverse hyperbolic cosine. -/
def acosh (z : Complex) : Complex :=
  if !z.isFinite then
    ⟨if z.hasInfinite then Real.infinity else Real.nan, Float.atan2 z.im z.re⟩
  else if z.isLarge then ⟨z.logLarge, Float.atan2 z.im z.re⟩
  else
    let s := sqrt ⟨z.re - 1.0, z.im⟩
    let t := sqrt ⟨z.re + 1.0, z.im⟩
    ⟨(s.re * t.re + s.im * t.im).asinh, 2.0 * Float.atan2 s.im t.re⟩

/-- The inverse cosine. -/
def acos (z : Complex) : Complex :=
  if !z.isFinite then
    ⟨if z.re == 0.0 && z.im.isNaN then halfPi else Float.atan2 z.im.abs z.re,
      if !z.hasInfinite then Real.nan
      else if z.im.isNaN then Real.infinity else -Real.copySign Real.infinity z.im⟩
  else if z.isLarge then ⟨Float.atan2 z.im.abs z.re, -Real.copySign z.logLarge z.im⟩
  else
    let s := sqrt ⟨1.0 - z.re, -z.im⟩
    let t := sqrt ⟨1.0 + z.re, z.im⟩
    ⟨2.0 * Float.atan2 s.re t.re, (t.re * s.im - t.im * s.re).asinh⟩

/-- The inverse hyperbolic tangent for a real part that is not negative. -/
def atanhRight (z : Complex) : Except Fault Complex :=
  let b := z.im.abs
  if z.re > largeRoot || b > largeRoot then
    let h := Real.hypot (z.re / 2.0) (z.im / 2.0)
    .ok ⟨z.re / 4.0 / h / h, -Real.copySign halfPi (-z.im)⟩
  else if z.re == 1.0 && b < smallestRoot then
    if b == 0.0 then .error .outsideDomain
    else
      .ok ⟨-(b.sqrt / (Real.hypot b 2.0).sqrt).log,
        Real.copySign (Float.atan2 2.0 (-b) / 2.0) z.im⟩
  else
    let a := 1.0 - z.re
    .ok ⟨Real.log1p (4.0 * z.re / (a * a + b * b)) / 4.0,
      -Float.atan2 (-2.0 * z.im) (a * (1.0 + z.re) - b * b) / 2.0⟩

/-- The inverse hyperbolic tangent, which is an odd function. -/
def atanh (z : Complex) : Except Fault Complex :=
  if !z.isFinite then
    .ok ⟨if z.hasInfinite || (z.re == 0.0 && z.im.isNaN) then
        if z.re.isNaN then 0.0 else Real.copySign 0.0 z.re
      else Real.nan,
      if z.im.isNaN || !(z.hasInfinite) then Real.nan else Real.copySign halfPi z.im⟩
  else if Real.isNegative z.re then do return neg (← atanhRight (neg z))
  else atanhRight z

def cos (z : Complex) : Except Fault Complex := cosh z.turn
def sin (z : Complex) : Except Fault Complex := return turnBack (← sinh z.turn)
def tan (z : Complex) : Except Fault Complex := return turnBack (← tanh z.turn)
def asin (z : Complex) : Complex := turnBack (asinh z.turn)
def atan (z : Complex) : Except Fault Complex := return turnBack (← atanh z.turn)

/-- The coefficients of the series of the gamma function. -/
def gammaCoefficients : List Float := [
  676.5203681218851, -1259.1392167224028, 771.32342877765313, -176.61502916214059,
  12.507343278686905, -0.13857109526572012, 9.9843695780195716e-6, 1.5056327351493116e-7]

/-- The gamma function for a real part that is not less than one half. -/
def gammaRight (z : Complex) : Except Fault Complex := do
  let z := sub z ⟨1.0, 0.0⟩
  let series ← (gammaCoefficients.zipIdx 1).foldlM (fun sum (c, k) => do
    return add sum (← div (ofReal c) (add z (ofReal (Float.ofNat k))))) (ofReal 0.99999999999980993)
  let t := add (add z (ofReal 7.0)) (ofReal 0.5)
  let power ← pow t (add z (ofReal 0.5))
  return mul (mul (mul (sqrt (ofReal (2.0 * Real.pi))) power) (← exp (neg t))) series

/-- The gamma function, by reflection where the real part is less than one half. -/
def gamma (z : Complex) : Except Fault Complex :=
  if z.re < 0.5 then do
    let reflected ← sin (mul (ofReal Real.pi) z)
    div (ofReal Real.pi) (mul reflected (← gammaRight (sub ⟨1.0, 0.0⟩ z)))
  else gammaRight z

end MathExpr.Complex
