/-!
# Sorting by insertion

A stable sort. The list is taken to start with a run that is in order already, or in reverse order
throughout; each further element is put behind all that are not above it, at a place found by halving.
For a total order this is the sorted list; the order need not be total.
-/

namespace MathExpr.Ordering

variable {α : Type} (lt : α → α → Bool)

/-- The longest run at the start of a list, after its first element, in which no element is below the
one before, and what follows it. -/
def risingRun (last : α) : List α → List α × List α
  | [] => ([], [])
  | x :: xs =>
    if lt x last then ([], x :: xs)
    else
      let (run, rest) := risingRun x xs
      (x :: run, rest)

/-- The longest run at the start of a list, after its first element, in which each element is below the
one before, and what follows it. -/
def fallingRun (last : α) : List α → List α × List α
  | [] => ([], [])
  | x :: xs =>
    if lt x last then
      let (run, rest) := fallingRun x xs
      (x :: run, rest)
    else ([], x :: xs)

/-- The place of `x` in a list in order, between two bounds, by at most `fuel` halvings. -/
def place (x : α) (items : List α) : (fuel low high : Nat) → Nat
  | 0, low, _ => low
  | fuel + 1, low, high =>
    if low < high then
      let middle := (low + high) / 2
      match items[middle]? with
      | some y =>
        if lt x y then place x items fuel low middle else place x items fuel (middle + 1) high
      | none => low
    else low

/-- A list in order with one more element. -/
def insert (items : List α) (x : α) : List α :=
  let i := place lt x items items.length 0 items.length
  items.take i ++ x :: items.drop i

/-- The list in order. -/
def insertionSort : List α → List α
  | [] => []
  | [x] => [x]
  | x :: y :: rest =>
    let (start, rest) :=
      if lt y x then
        let (run, rest) := fallingRun lt y rest
        ((x :: y :: run).reverse, rest)
      else
        let (run, rest) := risingRun lt y rest
        (x :: y :: run, rest)
    rest.foldl (insert lt) start

end MathExpr.Ordering
