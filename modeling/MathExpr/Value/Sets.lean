import MathExpr.Value.Basic
/-!
# Operations on sets of values

A set is a list of values of which no two are equal under `Value.eqv`, in order of first appearance.
-/

namespace MathExpr.Value

/-- Whether a value equals one of a list. -/
def isIn (x : Value) (items : List Value) : Bool :=
  items.any fun y => eqv y x

/-- `seen` followed by the values of a list that equal none before them. -/
def distinctFrom (seen : List Value) : List Value → List Value
  | [] => seen
  | x :: xs => distinctFrom (if isIn x seen then seen else seen ++ [x]) xs

/-- A list without repetitions: of equal values the first is kept. -/
def distinct (items : List Value) : List Value := distinctFrom [] items

/-- The elements of either set. -/
def union (a b : List Value) : List Value := distinct (a ++ b)

/-- The elements of both sets. -/
def intersection (a b : List Value) : List Value := (distinct a).filter fun x => isIn x b

/-- The elements of the first set that are not in the second. -/
def minus (a b : List Value) : List Value := (distinct a).filter fun x => !isIn x b

/-- The values of a list that equal none of another; repetitions are kept. -/
def excluding (a b : List Value) : List Value := a.filter fun x => !isIn x b

/-- The set of the values of a list. -/
def setOf (items : List Value) : Value := set (distinct items)

end MathExpr.Value
