import MathExpr.FreeNames
import MathExpr.Real.Reading
import MathExpr.Scope
/-!
# Constructs

A construct takes its arguments unevaluated. Each argument comes with the means to evaluate it in any
scope, so that a construct can leave it out, repeat it, or evaluate it with other variables.
-/

namespace MathExpr

/-- An argument that is yet to be evaluated: its tree, its value in a scope, and the values of the
arguments of the tree in a scope. -/
structure Suspended where
  tree : Tree
  value : Scope → Action Value
  parts : List (Scope → Action Value)

namespace Construct

/-- The error for a wrong number of arguments. -/
def wrongCount (c : Construct) (count : Nat) : Action Value :=
  Action.fail (.noFittingSignature c.name (toString count))

/-! ## Choices -/

/-- The value of the second argument if the first is true, of the third otherwise. -/
def evalConditional (s : Scope) (condition yes no : Suspended) : Action Value := do
  match ← condition.value s with
  | .boolean b => if b then yes.value s else no.value s
  | v => Action.fail (.conditionNotBoolean v.kind)

/-- The value of the first case whose condition holds. The last argument is the default if the number of
arguments is odd. -/
def evalCases (s : Scope) : List Suspended → Action Value
  | [] => Action.fail .noDefaultCase
  | [default] => default.value s
  | condition :: item :: rest => do
    match ← condition.value s with
    | .boolean b => if b then item.value s else evalCases s rest
    | v => Action.fail (.caseNotBoolean v.kind)

/-! ## Loops -/

/-- The list of the values of the first argument, evaluated as often as the second says. -/
def evalRepetition (s : Scope) (item count : Suspended) : Action Value := do
  match ← count.value s with
  | .number n =>
    let n ← Action.ofFault (Real.truncInt n.re)
    return .list (← (List.range n.toNat).mapM fun _ => item.value s)
  | v => Action.fail (.noFittingSignature repetition.name v.kind)

/-- The elements that a loop runs over. -/
def elements : Value → Action (List Value)
  | .range r => return Primitive.rangeItems r
  | .list items | .set items => return items
  | .vector entries => return entries.map .real
  | v => Action.fail (.notEnumerable v.kind)

/-- The names that a loop binds: the names of a list literal take a list apart. -/
inductive LoopNames where
  | single (name : String)
  | several (names : List String)

/-- The names that a tree gives to a loop. -/
def loopNames? (t : Tree) : Option LoopNames :=
  match t.name?, t.elements? with
  | some name, _ => some (.single name)
  | none, some items => (items.mapM Tree.name?).map .several
  | none, none => none

/-- The scope of a loop for an element. -/
def loopScope (s : Scope) (v : Value) : LoopNames → Scope
  | .single name => s.child.bind name v
  | .several names =>
    let parts := match v with
      | .list items => items
      | v => [v]
    s.child.bindAll (names.zip parts)

/-- The list of the values of the first argument for each element of the third. -/
def evalMap (s : Scope) (item names collection : Suspended) : Action Value := do
  let items ← elements (← collection.value s)
  match loopNames? names.tree with
  | none => Action.fail .binderNames
  | some names => return .list (← items.mapM fun v => item.value (loopScope s v names))

/-! ## Questions about kinds -/

/-- Whether a value is of a kind, where the complex numbers are those that are not real. -/
def isOfKind (kind : String) (v : Value) : Bool :=
  if kind == "complex" then
    match v with
    | .number n => n.im != 0.0
    | _ => false
  else v.kind == kind

/-- Whether a tree is of a kind, where this is decided without its value: a name without a value is a
name, and what contains such a name is of the kind of its head. -/
def kindOfUnbound (s : Scope) (kind : String) (t : Tree) : Outcome (Option Bool) := do
  match t.name? with
  | some name => if !s.binds name then return some (kind == "name")
  | none => pure ()
  let free ← FreeNames.ofTree s.tree [] t
  return if free.all s.binds then none else some (t.kind == kind)

/-- Whether the first argument is of the kind that the second names. -/
def evalIsa (s : Scope) (subject kind : Suspended) : Action Value := do
  match ← kind.value s with
  | .text kind _ _ =>
    match ← Action.ofOutcome (kindOfUnbound s kind subject.tree) with
    | some b => return .boolean b
    | none => return .boolean (isOfKind kind (← subject.value s))
  | _ => Action.fail .kindNotText

/-! ## Attempts -/

/-- The result of the first of at most `n` attempts that has one. -/
def attempts {α : Type} (attempt : Action (Option α)) : Nat → Action (Option α)
  | 0 => return none
  | n + 1 => do
    match ← attempt with
    | some a => return some a
    | none => attempts attempt n

/-- The scope with names bound, one after the other, to values that may refer to those before. -/
def define (s : Scope) : List (String × (Scope → Action Value)) → Action Scope
  | [] => return s
  | (name, value) :: rest => do define (s.bind name (← value s)) rest

/-- Whether all requirements are met, of which those after the first that is not are left out. -/
def meets (s : Scope) : List (Scope → Action Value) → Action Bool
  | [] => return true
  | requirement :: rest => do
    match ← requirement s with
    | .boolean b => if b then meets s rest else return false
    | _ => Action.fail .requirementNotBoolean

/-- The number of attempts where none is given. -/
def usualAttempts : Int := 100

/-- The number of attempts that a value asks for. -/
def attemptCount : Value → Action Int
  | .number n => Action.ofFault (Real.truncInt n.re)
  | .boolean b => return if b then 1 else 0
  | .text s _ _ => (Real.readInt s).elim (Action.breakDown .outsideDomain) pure
  | .name .. => Action.breakDown .missingPart
  | _ => Action.breakDown .unsuitable

/-- The values of the names, defined anew until the requirements are met. -/
def evalSatisfy (s : Scope) (names definitions requirements : Suspended) (count : Action Int) :
    Action Value := do
  match [names, definitions, requirements].find? fun a => a.tree.elements?.isNone with
  | some a => Action.fail (.noFittingSignature satisfy.name a.tree.kind)
  | none =>
    let keys := names.tree.boundKeys
    if keys.length ≠ definitions.parts.length then Action.fail .definitionCount
    else
      let attempt : Action (Option Value) := do
        let inner ← define s.child (keys.zip definitions.parts)
        if ← meets inner requirements.parts then
          return some (.list (keys.filterMap inner.value?))
        else return none
      match ← attempts attempt (← count).toNat with
      | some v => return v
      | none => Action.fail .tooManyAttempts

/-! ## Application -/

/-- The value of a construct. -/
def eval (s : Scope) : Construct → List Suspended → Action Value
  | conditional, [condition, yes, no] => evalConditional s condition yes no
  | cases, args => evalCases s args
  | repetition, [item, count] => evalRepetition s item count
  | map, [item, names, collection] => evalMap s item names collection
  | isa, [subject, kind] => evalIsa s subject kind
  | satisfy, [names, definitions, requirements] =>
    evalSatisfy s names definitions requirements (pure usualAttempts)
  | satisfy, [names, definitions, requirements, count] =>
    evalSatisfy s names definitions requirements do attemptCount (← count.value s)
  | c, args => wrongCount c args.length

end Construct

end MathExpr
