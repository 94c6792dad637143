import MathExpr.Signature
import MathExpr.Tree.OfTokens
/-!
# Custom functions

A custom function is defined by an expression in its parameters.
-/

namespace MathExpr

/-- A custom function as it is written. The parameters come with their kinds. -/
structure WrittenFunction where
  name : String
  parameters : List (String × String)
  result : String := "?"
  definition : String
  language : String := "jme"

namespace WrittenFunction

/-- The signature of a custom function, with a serial number. `read` gives the tree of the definition. -/
def signature (read : String → Outcome (Option Tree)) (serial : Nat) (f : WrittenFunction) :
    Outcome Signature :=
  if Text.lower f.language ≠ "jme" then .error (.error (.unsupportedLanguage f.name f.language))
  else
    match read f.definition with
    | .error (.error e) => .error (.error (.inFunction f.name e))
    | .error (.fault e) => .error (.fault e)
    | .ok none => .error (.error (.emptyDefinition f.name))
    | .ok (some t) =>
      .ok ⟨serial, f.name, f.parameters.map fun p => ArgumentType.ofText p.2,
        .custom (f.parameters.map Prod.fst) f.result t⟩

end WrittenFunction

end MathExpr
