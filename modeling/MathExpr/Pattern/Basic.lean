import MathExpr.Tree.OfTokens
/-!
# Patterns

A pattern is written like an expression. A question mark stands for any tree, a semicolon names what is
matched, and some functions have a meaning of their own; everything else stands for itself.
-/

namespace MathExpr

/-- A pattern for trees.

* `anyMore` as the last operand of a commutative operator takes all operands that are left; elsewhere
  it is the same as `anything`.
* `capture p key` names the tree that `p` matches; the same name matches equal trees only. -/
inductive Pattern where
  | anything
  | anyMore
  | capture (p : Pattern) (key : String)
  | ofKind (kind : String)
  | anyOf (ps : List Pattern)
  | allOf (ps : List Pattern)
  | excluding (p : Pattern)
  | commuting (p : Pattern)
  | literal (v : Value)
  | node (head : Head) (ps : List Pattern)

namespace Pattern

mutual

/-- The names that a pattern captures under; those of an excluded pattern are never captured. -/
def captureNames : Pattern → List String
  | capture p key => key :: captureNames p
  | anyOf ps | allOf ps | node _ ps => captureNamesOf ps
  | commuting p => captureNames p
  | _ => []

/-- The names that the patterns of a list capture under. -/
def captureNamesOf : List Pattern → List String
  | [] => []
  | p :: ps => captureNames p ++ captureNamesOf ps

end

mutual

/-- The names that stand for themselves in a pattern. -/
def literalNames : Pattern → List String
  | literal (.name s _) => [Text.lower s]
  | capture p _ => literalNames p
  | anyOf ps | allOf ps | node _ ps => literalNamesOf ps
  | commuting p => literalNames p
  | _ => []

/-- The names that stand for themselves in the patterns of a list. -/
def literalNamesOf : List Pattern → List String
  | [] => []
  | p :: ps => literalNames p ++ literalNamesOf ps

end

/-- The pattern of a value: a few names stand for classes of trees. -/
def ofValue : Value → Pattern
  | .name "?" _ => anything
  | .name "??" _ => anyMore
  | .name "$n" _ => ofKind "number"
  | .name "$v" _ => ofKind "name"
  | v => literal v

/-- The kind that a tree names, by a name or a text. -/
def kindName? : Tree → Option String
  | .leaf (.name s _) => some s
  | .leaf (.text s _ _) => some s
  | _ => none

/-- The pattern of a function, given the patterns of its arguments. -/
def ofCall (name : String) (ps : List Pattern) : Pattern :=
  match Text.lower name, ps with
  | "m_any", ps => anyOf ps
  | "m_all", ps | "m_and", ps => allOf ps
  | "m_not", [p] => excluding p
  | "m_number", [] => ofKind "number"
  | "m_commute", [p] => commuting p
  | _, ps => node (.call name) ps

mutual

/-- The pattern that a tree stands for. A capture name has to be a name. -/
def ofTree : Tree → Except Error Pattern
  | .leaf v => .ok (ofValue v)
  | .node (.op ⟨";", _⟩) [p, t] =>
    match t.key? with
    | some key => return capture (← ofTree p) key
    | none => .error (.badCapture t.kind)
  | .node (.call name) args =>
    if Text.lower name = "m_type" then
      match args.map kindName? with
      | [some kind] => .ok (ofKind kind)
      | _ => .error .missingKind
    else return ofCall name (← ofTrees args)
  | .node h args => return node h (← ofTrees args)

/-- The patterns that the trees of a list stand for. -/
def ofTrees : List Tree → Except Error (List Pattern)
  | [] => .ok []
  | t :: ts => return (← ofTree t) :: (← ofTrees ts)

end

/-- The pattern written in source text, which must not be empty. -/
def ofSource (s : String) : Outcome Pattern := do
  match ← Tree.ofSource s with
  | some t => (ofTree t).mapError .error
  | none => .error (.fault .missingPart)

end Pattern

end MathExpr
