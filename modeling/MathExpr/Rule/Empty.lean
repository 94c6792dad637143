import MathExpr.Pattern.Empty
import MathExpr.Rule.Apply
/-!
# Applying a rule to the empty expression

A rule whose pattern does not look at the tree applies to the empty expression too. What such a pattern
captures is empty, so that a condition or result with a captured name in it breaks down, because there is
nothing to put in for the name.
-/

namespace MathExpr.Rule

/-- A tree in which none of the names occurs that stand for nothing. -/
def withoutNames (names : List String) (t : Tree) : Except Fault Tree :=
  if t.subtrees.any fun u => u.key?.any names.contains then .error .missingPart else .ok t

/-- Whether all conditions are true where some names stand for nothing. -/
def areMetWithout (s : Scope) (names : List String) : List (Option Tree) → Action Bool
  | [] => return true
  | condition :: rest => do
    let condition ← condition.mapM fun t => Action.ofFault (withoutNames names t)
    if ← areMet s .empty [condition] then areMetWithout s names rest else return false

/-- What a rule turns the empty expression into, if it applies. The scope is one without variables. -/
def transformEmpty (s : Scope) (r : Rule) : Action (Option Tree) := do
  match ← Action.ofFault (r.pattern.captureEmpty []) with
  | none => return none
  | some names =>
    if ← areMetWithout s names r.conditions then
      let result ← Action.ofFault (withoutNames names r.result)
      return (← Action.attempt (result.evalParts s)).toOption
    else return none

/-- What a rule turns an expression into, if it applies in a scope. -/
def applyTo (s : Scope) (r : Rule) : Option Tree → Action (Option Tree)
  | some t => r.apply s t
  | none => r.transformEmpty s.withoutVariables

end MathExpr.Rule
