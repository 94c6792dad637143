import MathExpr.Library.Functions
import MathExpr.Library.Rules
import MathExpr.Scope
/-!
# The built-in scope

All that is built in. The built-in scope is frozen.
-/

namespace MathExpr.Library

/-- The scope of the built-in functions and rulesets. -/
def scope : Scope :=
  let s := signatures.foldl Scope.addSignature .empty
  let s := rulesets.entries.foldl (fun s r => s.addRuleset r.1 (.ruleset r.2)) s
  s.freeze

end MathExpr.Library
