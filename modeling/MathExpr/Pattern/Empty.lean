import MathExpr.Pattern.Matching
/-!
# Matching the empty expression

An expression may be empty, and a pattern that does not look at the tree matches it all the same; what
is captured is then empty too. A pattern that asks for the kind of the tree, its value or its arguments
breaks down, because there is nothing to ask.
-/

namespace MathExpr.Pattern

mutual

/-- The names under which a pattern captures the empty expression, after those captured before. -/
def captureEmpty : Pattern → List String → Except Fault (Option (List String))
  | anything, names | anyMore, names => return some names
  | capture p key, names => return (← captureEmpty p names).map fun names => names.insert key
  | anyOf ps, names => captureEmptyByAny ps names
  | allOf ps, names => captureEmptyByAll ps names
  | excluding p, names => return if (← captureEmpty p names).isNone then some names else none
  | commuting p, names => captureEmpty p names
  | ofKind _, _ | literal _, _ | node _ _, _ => .error .missingPart

/-- The names captured by the first pattern of a list that matches the empty expression. -/
def captureEmptyByAny : List Pattern → List String → Except Fault (Option (List String))
  | [], _ => return none
  | p :: ps, names => do
    match ← captureEmpty p names with
    | some names => return some names
    | none => captureEmptyByAny ps names

/-- The names captured by the patterns of a list, which all have to match the empty expression. -/
def captureEmptyByAll : List Pattern → List String → Except Fault (Option (List String))
  | [], names => return some names
  | p :: ps, names => do
    match ← captureEmpty p names with
    | some names => captureEmptyByAll ps names
    | none => return none

end

/-- What a pattern captures of an expression that it matches. -/
def find? (p : Pattern) (t : Option Tree) (commute : Bool) :
    Except Fault (Option (Table (Option Tree))) :=
  match t with
  | some t => return (p.find t commute).map (Table.mapEntries some)
  | none => return (← p.captureEmpty []).map fun names => ⟨names.map fun key => (key, none)⟩

end MathExpr.Pattern
