import MathExpr.Number.Rounding
/-!
# Divisors and counting

Remainders, common factors and multiples, factorisation over a table of primes, and the numbers of
selections. The work is done on integers; a number that is no integer has the common factor one with
every other, and divides nothing.
-/

namespace MathExpr.Number

/-- The remainder of `a` by the size of `b`, with a value that is not negative. -/
def mod (a b : Number) : Outcome Number := do
  let x ← ordered a
  let y ← ordered b
  if y == Real.infinity then return real x
  let y := y.abs
  return real (remainderOrNaN (remainderOrNaN x y + y) y)

/-- The number of ways to choose `k` of `n` things in order. -/
def permutations (n k : Number) : Outcome Number :=
  match n, k with
  | real x, real y =>
    if x < 0.0 then .error (.error .permutationsNegativeTotal)
    else if y < 0.0 then .error (.error .permutationsNegativeChoice)
    else if x < y then .error (.error .permutationsChoiceTooLarge)
    else do
      let top ← factorial (real x)
      return div top (← factorial (real (x - y)))
  | _, _ => .error (.error .complexPermutations)

/-- The number of ways to choose `k` of `n` things. -/
def combinations (n k : Number) : Outcome Number :=
  match n, k with
  | real x, real y =>
    if x < 0.0 then .error (.error .combinationsNegativeTotal)
    else if y < 0.0 then .error (.error .combinationsNegativeChoice)
    else if x < y then .error (.error .combinationsChoiceTooLarge)
    else do
      let top ← factorial (real x)
      let chosen ← factorial (real y)
      return div top (mul chosen (← factorial (real (x - y))))
  | _, _ => .error (.error .complexCombinations)

/-- The integer that a real number is, if it is one. -/
def integer? (x : Float) : Option Int :=
  if Real.isInteger x then
    match Real.truncInt x with
    | .ok n => some n
    | .error _ => none
  else none

/-- The greatest common factor of two real numbers; one if either is no integer or both are zero. -/
def commonFactorReal (x y : Float) : Float :=
  match integer? x, integer? y with
  | some m, some n => if m = 0 ∧ n = 0 then 1.0 else Float.ofNat (Nat.gcd m.natAbs n.natAbs)
  | _, _ => 1.0

/-- The greatest common factor. -/
def commonFactor (a b : Number) : Outcome Number :=
  match a, b with
  | real x, real y => .ok (real (commonFactorReal x y))
  | _, _ => .error (.error .complexCommonFactor)

/-- The greatest common factor after both numbers are divided by their common power of pi, and by the
imaginary unit if both are purely imaginary. -/
def commonFactorBarPi (a b : Number) : Except Fault Number := do
  let imaginary (z : Number) : Bool := z.re == 0.0 && !(z.im == 0.0)
  let (x, y) := if imaginary a && imaginary b then (a.im, b.im) else (a.re, b.re)
  let degree := Nat.min (piDegree x) (piDegree y)
  if degree = 0 then return real (commonFactorReal x y)
  let power := powerOfPi degree
  let x ← roundPlacesReal (x / power) (.whole 8)
  let y ← roundPlacesReal (y / power) (.whole 8)
  return real (commonFactorReal x y)

/-- The least common multiple. -/
def commonMultiple (a b : Number) : Outcome Number :=
  match a, b with
  | real x, real y =>
    .ok (real (if x == 0.0 || y == 0.0 then 0.0 else (x * y).abs / commonFactorReal x y))
  | _, _ => .error (.error .complexCommonMultiple)

/-- The least common multiple of a list, taken from the left. -/
def commonMultipleOf (numbers : List Number) : Outcome Number :=
  numbers.foldlM commonMultiple (real 1.0)

/-- Whether `a` divides `b`; zero divides itself alone. -/
def divides (a b : Number) : Bool :=
  match a, b with
  | real x, real y =>
    match integer? x, integer? y with
    | some m, some n => if m = 0 then n == 0 else n % m == 0
    | _, _ => false
  | _, _ => false

/-! ## Factorisation -/

/-- Whether no number from two up to the square root divides `n`. -/
def isPrime (n : Nat) : Bool :=
  decide (2 ≤ n) && (List.range' 2 (Real.sqrtNat n - 1)).all fun d => n % d != 0

/-- The first thousand primes. -/
def primes : List Nat :=
  ((List.range 8001).filter isPrime).take 1000

/-- How often `p` divides `n`, and what is left of `n`. -/
def splitPower (p n : Nat) : Nat × Nat :=
  if _h : 2 ≤ p ∧ 0 < n ∧ n % p = 0 then
    let (k, rest) := splitPower p (n / p)
    (k + 1, rest)
  else (0, n)
termination_by n
decreasing_by exact Nat.div_lt_self _h.2.1 _h.1

/-- The exponents of a list of primes in `n`, up to the last that is needed. -/
def exponents : List Nat → Nat → List Nat
  | [], _ => []
  | p :: ps, n =>
    if n = 1 then []
    else
      let (k, rest) := splitPower p n
      k :: exponents ps rest

/-- The exponents of the primes of the table in a natural number. A factor beyond the table is
dropped. -/
def factoriseNat (n : Nat) : List Nat :=
  exponents primes n

/-- The exponents of the primes of the table in a positive integer; none for any other number. -/
def factorise (a : Number) : List Number :=
  match integer? a.re with
  | some n => if 0 < n then (factoriseNat n.toNat).map Number.ofNat else []
  | none => []

end MathExpr.Number
