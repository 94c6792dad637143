import MathExpr.Number.Rounding
/-!
# Rational approximation

A number is approximated by a fraction from its continued fraction: terms are taken until the
convergent is close enough, the expansion ends, or `maxTerms` terms are there. The arithmetic is a
parameter, `FractionArithmetic`, so that the expansion means the same on floating-point numbers and on
exact ones.
-/

namespace MathExpr

/-- What the expansion needs to know about numbers of type `α`. `close` says whether an estimate is as
near to the number as is asked for. -/
structure FractionArithmetic (α : Type) where
  floor : α → Except Fault Int
  ofInt : Int → α
  sub : α → α → α
  addInverse : Int → α → α
  inverse : α → α
  isZero : α → Bool
  close : α → α → Bool

namespace FractionArithmetic

variable {α : Type} (arith : FractionArithmetic α)

/-- The largest number of terms. -/
def maxTerms : Nat := 64

/-- The value of a continued fraction, given its terms from the last to the first. -/
def estimate (last : Int) (terms : List Int) : α :=
  terms.foldl (fun value term => arith.addInverse term value) (arith.ofInt last)

/-- The terms of the expansion, latest first. `n` is what is left to expand, and at most `room` terms
are added. -/
def expand (target : α) : (room : Nat) → (terms : List Int) → (current n : α) →
    Except Fault (List Int)
  | 0, terms, _, _ => .ok terms
  | room + 1, terms, current, n =>
    if arith.close target current then .ok terms
    else do
      let i ← arith.floor n
      let rest := arith.sub n (arith.ofInt i)
      if arith.isZero rest then return i :: terms
      expand target room (i :: terms) (arith.estimate i terms) (arith.inverse rest)

/-- Numerator and denominator of a continued fraction, given its terms from the last to the first. -/
def fraction (terms : List Int) : Int × Int :=
  terms.foldl (fun (numerator, denominator) term => (term * numerator + denominator, numerator)) (1, 0)

/-- A fraction close to `n`. -/
def approximate (n : α) : Except Fault (Int × Int) := do
  let i ← arith.floor n
  if arith.isZero (arith.sub n (arith.ofInt i)) then return (i, 1)
  match ← arith.expand n maxTerms [] (arith.ofInt i) n with
  | [] => return (i, 1)
  | terms => return fraction terms

/-- Floating-point arithmetic, with a tolerance. -/
def float (tolerance : Float) : FractionArithmetic Float where
  floor := Real.floorInt
  ofInt := Float.ofInt
  sub := (· - ·)
  addInverse term x := Float.ofInt term + 1.0 / x
  inverse x := 1.0 / x
  isZero x := x == 0.0
  close x y := !((x - y).abs > tolerance)

end FractionArithmetic

namespace Number

/-- The accuracy asked for where none is given: a fraction is within `exp (-accuracy)`. -/
def defaultAccuracy : Float := 15.0

/-- A fraction within `exp (-accuracy)` of a real number. -/
def rationalApproximation (n accuracy : Float) : Except Fault (Int × Int) :=
  let tolerance := (-accuracy).exp
  if tolerance.isInf && accuracy.isFinite then .error .overflow
  else (FractionArithmetic.float tolerance).approximate n

end Number

end MathExpr
