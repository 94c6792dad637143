import MathExpr.Evaluate
import MathExpr.Number.Rounding
import MathExpr.Real.Reading
/-!
# Marking

Decides whether an answer is the same as the right one. Both are evaluated, at random points if they
have free variables, and the values are compared by a criterion with an accuracy. An answer that cannot
be read or evaluated is wrong.
-/

namespace MathExpr

/-! ## Criteria -/

/-- When two numbers count as the same: if they differ by no more than a tolerance, by no more than a
part of the right one, or if they are the same when rounded. -/
inductive Criterion where
  | difference
  | relative
  | places
  | figures
  deriving DecidableEq, Repr

namespace Criterion

/-- The criterion with a name in lower case. -/
def ofName? (s : String) : Option Criterion :=
  match s with
  | "absdiff" => some difference
  | "reldiff" => some relative
  | "dp" => some places
  | "sigfig" => some figures
  | _ => none

/-- Whether two numbers are the same when rounded. -/
def sameRounded (round : Number → Places → Except Fault Number) (a b : Number)
    (accuracy : Float) : Except Fault Bool := do
  let p := Places.real (Real.floor accuracy.abs)
  let x ← round a p
  return x.eq (← round b p)

/-- Whether two numbers count as the same, of which the second is the right one. Infinite numbers are the
same as themselves only. -/
def agree (c : Criterion) (a b : Number) (accuracy : Float) : Except Fault Bool :=
  if a.isInfinite || b.isInfinite then .ok (a.eq b)
  else
    match c with
    | difference => return decide ((← (a.sub b).abs) ≤ accuracy.abs)
    | relative => do
      let d ← (a.sub b).abs
      if b.isZero then return decide (d ≤ accuracy)
      else return decide (d ≤ (← (b.mul (.real accuracy)).abs))
    | places => sameRounded Number.roundPlaces a b accuracy
    | figures => sameRounded Number.roundFigures a b accuracy

/-- Whether numbers count as the same one by one. -/
def agreeAll (c : Criterion) (accuracy : Float) : List Float → List Float → Except Fault Bool
  | x :: xs, y :: ys => do
    if ← c.agree (.real x) (.real y) accuracy then agreeAll c accuracy xs ys else return false
  | _, _ => .ok true

mutual

/-- Whether two values count as the same. Numbers do by the criterion, lists, vectors and matrices element
by element, and all other values if they are equal. -/
def agreeValues (c : Criterion) (accuracy : Float) : Value → Value → Except Fault Bool
  | .number a, .number b => c.agree a b accuracy
  | .vector xs, .vector ys =>
    if xs.length = ys.length then c.agreeAll accuracy xs ys else .ok false
  | .matrix m, .matrix n =>
    if m.height = n.height ∧ m.columns = n.columns then
      c.agreeAll accuracy m.entries n.entries
    else .ok false
  | .list xs, .list ys =>
    if xs.length = ys.length then agreeLists c accuracy xs ys else .ok false
  | v, w => .ok (v.eqv w)

/-- Whether values count as the same one by one. -/
def agreeLists (c : Criterion) (accuracy : Float) : List Value → List Value → Except Fault Bool
  | v :: vs, w :: ws => do
    if ← agreeValues c accuracy v w then agreeLists c accuracy vs ws else return false
  | _, _ => .ok true

end

end Criterion

/-! ## Settings -/

/-- A number in a setting, which may be given as text. -/
inductive Setting where
  | number (x : Float)
  | text (s : String)
  | missing

namespace Setting

/-- The setting as a number. -/
def toFloat : Setting → Except Fault Float
  | number x => .ok x
  | text s => (Real.read s).elim (.error .outsideDomain) .ok
  | missing => .error .unsuitable

/-- The setting as an integer, with a fraction cut off a number. -/
def toInt : Setting → Except Fault Int
  | number x => Real.truncInt x
  | text s => (Real.readInt s).elim (.error .outsideDomain) .ok
  | missing => .error .unsuitable

/-- Whether a count is below the setting, which has to be a number. -/
def isAbove (n : Nat) : Setting → Except Fault Bool
  | number x => .ok (decide (Float.ofNat n < x))
  | _ => .error .unsuitable

end Setting

/-- How an answer is marked: the criterion and its accuracy, the interval from which the free variables
are drawn, the number of points, and the number of points at which a difference makes the answer
wrong. -/
structure Marking where
  criterion : String := "reldiff"
  accuracy : Setting := .number 0.0001
  start : Setting := .number 0.0
  stop : Setting := .number 1.0
  points : Setting := .number 5.0
  failures : Setting := .number 1.0

namespace Marking

/-! ## Marking an answer -/

/-- Whether a failure is one that an answer may cause. -/
def isExpected : Failure → Bool
  | .error _ => true
  | .fault f =>
    [.overflow, .divisionByZero, .decimalRange, .outsideDomain, .unsuitable, .frozenScope].contains f

/-- A judgement, which is negative where an answer causes a failure. -/
def judge (x : Action Bool) : Action Bool :=
  tryCatch x fun e => if isExpected e then return false else throw e

/-- The keys of the names of a tree that have no value in a scope. Names with a dollar sign in front are
left out. -/
def freeNames (s : Scope) (t : Tree) : Outcome (List String) := do
  let names ← FreeNames.ofTree s.tree [] t
  return names.filter fun n => !s.binds n && n.toList.head? != some '$'

/-- Whether two lists have the same elements. -/
def sameNames (names others : List String) : Bool :=
  names.all others.contains && others.all names.contains

/-- What there is to compare: nothing, if the judgement stands already, or two trees and the free names
of the second, which are those of the first. -/
def prepare (s : Scope) (answer right : Option String) :
    Outcome (Bool ⊕ (Tree × Tree × List String)) := do
  let read : Option String → Outcome (Option Tree)
    | some text => s.tree text
    | none => pure none
  let a ← read answer
  let b ← read right
  match a, b with
  | some a, some b =>
    let found ← freeNames s a
    let names ← freeNames s b
    if sameNames found names then return .inr (a, b, names) else return .inl false
  | a, b => return .inl (a.isNone && b.isNone)

/-- Whether two trees have values in a scope that count as the same. -/
def sameValue (c : Criterion) (accuracy : Float) (s : Scope) (a b : Tree) : Action Bool := do
  let v ← s.eval a
  let w ← s.eval b
  Action.ofFault (c.agreeValues accuracy v w)

/-- The scope with each name bound to a random number between two bounds. -/
def drawPoint (s : Scope) (start stop : Float) (names : List String) : Action Scope := do
  let point ← names.mapM fun n => do return (n, Value.real (← Action.uniform start stop))
  return s.child.merge { values := .ofList point }

/-- The number of random points, out of `n`, at which two trees do not count as the same. -/
def countFailures (c : Criterion) (accuracy : Float) (s : Scope) (start stop : Float)
    (names : List String) (a b : Tree) : Nat → Action Nat
  | 0 => return 0
  | n + 1 => do
    let point ← drawPoint s start stop names
    let same ← judge (sameValue c accuracy point a b)
    return (if same then 0 else 1) +
      (← countFailures c accuracy s start stop names a b n)

/-- Whether an answer is the same as the right one. An empty text is the same as another only. -/
def isRight (m : Marking) (s : Scope) (answer right : Option String) : Action Bool := do
  match Criterion.ofName? (Text.lower m.criterion) with
  | none => Action.breakDown .missingSetting
  | some c =>
    let accuracy ← Action.ofFault m.accuracy.toFloat
    match prepare s answer right with
    | .error e => if isExpected e then return false else throw e
    | .ok (.inl same) => return same
    | .ok (.inr (a, b, names)) =>
      if names.isEmpty then judge (sameValue c accuracy s a b)
      else
        let start ← Action.ofFault m.start.toFloat
        let stop ← Action.ofFault m.stop.toFloat
        let points ← Action.ofFault m.points.toInt
        let n ← countFailures c accuracy s start stop names a b points.toNat
        Action.ofFault (m.failures.isAbove n)

end Marking

end MathExpr
