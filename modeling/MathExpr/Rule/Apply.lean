import MathExpr.Evaluate
import MathExpr.Pattern.Matching
import MathExpr.Rule.Basic
/-!
# Applying a rule

A rule applies to a tree that its pattern matches and that meets its conditions. Conditions see no
variables, so that the names in them mean what the pattern has captured. A condition that cannot be
evaluated is not met.
-/

namespace MathExpr

namespace Tree

mutual

/-- A tree with the captured trees put in for their names. -/
def fill (found : Captures) : Tree → Tree
  | .leaf (.name s hints) => (found.find? (Text.lower s)).getD (.leaf (.name s hints))
  | .leaf v => .leaf v
  | .node h args => .node h (fillAll found args)

/-- The trees of a list with the captured trees put in for their names. -/
def fillAll (found : Captures) : List Tree → List Tree
  | [] => []
  | t :: ts => fill found t :: fillAll found ts

end

mutual

/-- A tree with the argument of each `eval` evaluated. -/
def evalParts (s : Scope) : Tree → Action Tree
  | .leaf v => return .leaf v
  | .node (.call "eval") [t] => return .leaf (← s.eval t)
  | .node h args => return .node h (← evalPartsOf s args)

/-- The trees of a list with the argument of each `eval` evaluated. -/
def evalPartsOf (s : Scope) : List Tree → Action (List Tree)
  | [] => return []
  | t :: ts => return (← evalParts s t) :: (← evalPartsOf s ts)

end

end Tree

namespace Rule

/-- Whether all conditions are true of what has been captured. An empty condition has no value. -/
def areMet (s : Scope) (found : Captures) : List (Option Tree) → Action Bool
  | [] => return true
  | none :: _ => Action.breakDown .missingPart
  | some condition :: rest => do
    match ← Action.attempt (s.eval (condition.fill found)) with
    | .ok (.boolean true) => areMet s found rest
    | _ => return false

/-- What a rule turns a tree into, if it applies. The scope is one without variables. -/
def transform (s : Scope) (r : Rule) (t : Tree) : Action (Option Tree) := do
  match r.pattern.find t false with
  | none => return none
  | some found =>
    if ← areMet s found r.conditions then
      match ← Action.attempt ((r.result.fill found).evalParts s) with
      | .ok u => return some u
      | .error _ => return none
    else return none

/-- What a rule turns a tree into, if it applies in a scope. -/
def apply (s : Scope) (r : Rule) (t : Tree) : Action (Option Tree) :=
  r.transform s.withoutVariables t

end Rule

end MathExpr
