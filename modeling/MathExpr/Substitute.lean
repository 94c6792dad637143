import MathExpr.FreeNames
import MathExpr.Scope
/-!
# Substitution

Replaces names by the values that a scope gives them. A construct that binds names keeps them.
-/

namespace MathExpr.Scope

mutual

/-- A tree with the names that have a value in the scope replaced by it. A name without a value is left
where this is allowed; it always is inside `isa` and where a construct binds names. -/
def substitute (s : Scope) (allowUnbound : Bool) : Tree → Except Error Tree
  | .leaf (.name n hints) =>
    match s.value? n with
    | some v => .ok (.leaf v)
    | none => if allowUnbound then .ok (.leaf (.name n hints)) else .error (.undefinedSubstitution n)
  | .leaf v => .ok (.leaf v)
  | .node h args => do
    let (names, count) := Tree.binding h args
    let allowUnbound := allowUnbound || h.key? == some "isa"
    return .node h (← substituteAll (s.without names) s count allowUnbound args)

/-- The trees of a list with names replaced: by their values in the scope `inner` in the first `count`
trees, in the scope `outer` in all others. -/
def substituteAll (inner outer : Scope) (count : Nat) (allowUnbound : Bool) :
    List Tree → Except Error (List Tree)
  | [] => .ok []
  | t :: ts => do
    let t ←
      if count = 0 then substitute outer allowUnbound t else substitute inner true t
    return t :: (← substituteAll inner outer (count - 1) allowUnbound ts)

end

end MathExpr.Scope
