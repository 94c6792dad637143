import MathExpr.Real.Functions
/-!
# Ranges

A range runs from `start` to `stop` by `step`. With step zero it is a continuous interval and has no
discrete values.
-/

namespace MathExpr

/-- The range `start..stop#step`. -/
structure Range where
  start : Float
  stop : Float
  step : Float
  deriving DecidableEq

namespace Range

/-- Whether the range is an interval of reals. -/
def isContinuous (r : Range) : Bool := r.step == 0.0

/-- The slack in the number of steps, which absorbs the error of a step that is no exact
floating-point number. -/
def slack : Float := 1e-10

/-- The number of discrete values. -/
def count (r : Range) : Nat :=
  if r.step == 0.0 then 0
  else
    let steps := (r.stop - r.start) / r.step
    if steps < 0.0 then 0
    else
      match Real.floorInt (steps + slack) with
      | .ok n => if steps.isFinite then (n + 1).toNat else 0
      | .error _ => 0

/-- The discrete values. -/
def values (r : Range) : List Float :=
  (List.range r.count).map fun i => r.start + Float.ofNat i * r.step

/-- Equality of start, end and step. -/
def eq (a b : Range) : Bool :=
  a.start == b.start && a.stop == b.stop && a.step == b.step

end Range

end MathExpr
