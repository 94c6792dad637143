import MathExpr.Definitions
/-!
# Sets of variables

Computes all variables of a set of definitions. A condition on their values may be given, and the
variables may be drawn again and again until it holds.
-/

namespace MathExpr

/-- The values of a set of definitions: the variables, whether the condition on them holds, and the
scope in which they have their values. -/
structure VariableSet where
  values : Table Value
  satisfied : Bool
  scope : Scope

/-- A condition on variables, as it is written or as a tree. -/
inductive Condition where
  | source (s : String)
  | tree (t : Tree)

namespace Condition

/-- The tree of a condition in a scope, nothing if the condition is empty. -/
def toTree (s : Scope) : Condition → Outcome (Option Tree)
  | source text => s.tree text
  | tree t => .ok (some t)

/-- Whether a condition holds in a scope. An empty condition does. -/
def holds (s : Scope) (c : Condition) : Action Bool := do
  match ← Action.ofOutcome (c.toTree s) with
  | none => return true
  | some t =>
    match ← s.eval t with
    | .boolean b => return b
    | _ => return false

end Condition

namespace VariableSet

/-- The variables with some definitions, computed in the order of the definitions. -/
def make (s : Scope) (definitions : Table Definition) (condition : Option Condition) :
    Action VariableSet := do
  let (_, s) ← Resolving.runIn s.child
    (definitions.keys.forM fun name => do let _ ← Definition.compute definitions [] name)
  let values := .ofList (definitions.keys.filterMap fun name =>
    (s.value? name).map fun v => (name, v))
  match condition with
  | none => return ⟨values, true, s⟩
  | some c => return ⟨values, ← c.holds s, s⟩

/-- The variables of the first of at most `runs` sets that meets the condition. -/
def firstSatisfied (s : Scope) (definitions : Table Definition) (condition : Option Condition) :
    (runs : Nat) → Action (Option (Table Value))
  | 0 => return none
  | runs + 1 => do
    let made ← make s definitions condition
    if made.satisfied then return some made.values
    else firstSatisfied s definitions condition runs

/-- The number of sets that are made where nothing else is said. -/
def usualRuns : Int := 100

/-- The variables with some definitions, made anew until they meet a condition, which is read in the outer
scope. -/
def generate (s : Scope) (definitions : Table Definition) (condition : Option Condition)
    (runs : Int) : Action (Table Value) := do
  let condition ← match condition with
    | none => pure none
    | some c => do pure ((← Action.ofOutcome (c.toTree s)).map Condition.tree)
  match ← firstSatisfied s definitions condition runs.toNat with
  | some values => return values
  | none => Action.fail (.tooManyRuns runs)

end VariableSet

end MathExpr
