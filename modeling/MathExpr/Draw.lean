import MathExpr.Failure
import MathExpr.Real.Binary
/-!
# Drawing random numbers

Random choices read numbers between zero and one from a stream that is given beforehand, over and over
again. An action may draw and may fail; what it has drawn before a failure stays drawn.
-/

namespace MathExpr

/-- A stream of random numbers, and how many have been taken from it. -/
structure Draws where
  stream : List Float
  taken : Nat

/-- The stream that is read where no other is given. -/
def Draws.default : Draws := ⟨[0.1, 0.7, 0.3, 0.9, 0.5, 0.2, 0.8, 0.4, 0.6, 0.0], 0⟩

/-- The next number of the stream. -/
def Draws.next (d : Draws) : Float × Draws :=
  (d.stream.getD (d.taken % d.stream.length) 0.0, ⟨d.stream, d.taken + 1⟩)

/-- A computation that may draw random numbers and may fail. -/
abbrev Action (α : Type) := ExceptT Failure (StateM Draws) α

namespace Action

/-- A result or failure without drawing. -/
def ofOutcome {α : Type} (x : Outcome α) : Action α := ExceptT.mk (pure x)

/-- A result or breakdown without drawing. -/
def ofFault {α : Type} (x : Except Fault α) : Action α := ofOutcome (x.mapError .fault)

/-- A result or error without drawing. -/
def ofError {α : Type} (x : Except Error α) : Action α := ofOutcome (x.mapError .error)

/-- Fails with an error. -/
def fail {α : Type} (e : Error) : Action α := throw (.error e)

/-- Breaks down. -/
def breakDown {α : Type} (f : Fault) : Action α := throw (.fault f)

/-- The result of an action, or the error that it fails with. A breakdown is not held up. -/
def attempt {α : Type} (x : Action α) : Action (Except Error α) :=
  tryCatch (do return .ok (← x)) fun
    | .error e => return .error e
    | .fault f => throw (.fault f)

/-- A random number between zero and one. -/
def draw : Action Float := do
  let d ← get
  let (u, d) := d.next
  set d
  return u

/-- A random number between two numbers. -/
def uniform (a b : Float) : Action Float := do
  return a + (b - a) * (← draw)

/-- A random number below `n`. -/
def below (n : Nat) : Action Nat := do
  let u ← draw
  return (← ofFault (Real.truncInt (u * Float.ofNat n))).toNat

/-- A random element of a list that is not empty. -/
def choose {α : Type} (items : List α) : Action α := do
  match items[← below items.length]? with
  | some a => return a
  | none => breakDown .outOfBounds

/-- The list with two elements exchanged. -/
def swap {α : Type} (items : List α) (i j : Nat) : List α :=
  match items[i]?, items[j]? with
  | some a, some b => (items.set i b).set j a
  | _, _ => items

/-- Exchanges each of the elements number `n` to one with a random one up to it, from the last on. -/
def shuffleFrom {α : Type} : Nat → List α → Action (List α)
  | 0, items => return items
  | n + 1, items => do
    let j ← below (n + 2)
    shuffleFrom n (swap items (n + 1) j)

/-- A list in random order. -/
def shuffle {α : Type} (items : List α) : Action (List α) :=
  shuffleFrom (items.length - 1) items

end Action

end MathExpr
