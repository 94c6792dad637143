import MathExpr.Display.Tex
import MathExpr.Rule.Apply
import MathExpr.Rule.Select
/-!
# Simplification

Simplifies a tree with the rules of a ruleset until none applies anywhere. Arguments come before the node
that they belong to; the first rule that applies to a node fires, and what it gives is simplified from
its arguments on. The number of firings is limited.
-/

namespace MathExpr

/-- That a rule has fired: its name, and the tree before and after as source text. -/
structure Firing where
  rule : String
  before : String
  after : String
  deriving DecidableEq, Repr

namespace Simplify

/-- An action that notes which rules fire, latest first. -/
abbrev Run := StateT (List Firing) Action

/-- The first rule that applies to a tree, and what it turns the tree into. -/
def firstToApply (s : Scope) (t : Tree) : List Rule → Action (Option (Rule × Tree))
  | [] => return none
  | r :: rs => do
    match ← r.transform s t with
    | some u => return some (r, u)
    | none => firstToApply s t rs

/-- Lets the first rule that applies to a tree fire, unless this is one firing too many. -/
def fire (s : Scope) (rules : List Rule) (limit : Int) (t : Tree) : Run (Option Tree) := do
  match ← firstToApply s t rules with
  | none => return none
  | some (r, u) =>
    let fired ← get
    if limit < fired.length + 1 then Action.fail (.tooManySteps limit)
    else
      let before ← Action.ofFault (t.source {})
      let after ← Action.ofFault (u.source {})
      set (⟨r.name, before, after⟩ :: fired)
      return some u

mutual

/-- A tree simplified from its arguments on, where `step` lets a rule fire at its head and `again`
goes on with the result. -/
def settleWith (step : Tree → Run (Option Tree)) (again : Tree → Run Tree) : Tree → Run Tree
  | .leaf v => finish (.leaf v)
  | .node h args => do finish (.node h (← settleAllWith step again args))
where
  finish (t : Tree) : Run Tree := do
    match ← step t with
    | some u => again u
    | none => return t

/-- The trees of a list simplified from their arguments on. -/
def settleAllWith (step : Tree → Run (Option Tree)) (again : Tree → Run Tree) :
    List Tree → Run (List Tree)
  | [] => return []
  | t :: ts => return (← settleWith step again t) :: (← settleAllWith step again ts)

end

/-- A tree simplified until no rule applies, with at most `fuel` results of firings inside one another.
Since no more rules may fire than the limit says, fuel for as many is enough. -/
def settle (s : Scope) (rules : List Rule) (limit : Int) : (fuel : Nat) → Tree → Run Tree
  | 0 => settleWith (fire s rules limit) fun _ => Action.fail (.tooManySteps limit)
  | fuel + 1 => settleWith (fire s rules limit) (settle s rules limit fuel)

/-- The number of firings that are allowed where nothing else is said. -/
def usualLimit : Int := 1000

end Simplify

namespace Ruleset

/-- A tree simplified in a scope, and the firings in order. -/
def simplifyTracing (r : Ruleset) (s : Scope) (limit : Int) (t : Tree) :
    Action (Tree × List Firing) := do
  let (t, fired) ← (Simplify.settle s.withoutVariables r.rules limit limit.toNat t).run []
  return (t, fired.reverse)

/-- A tree simplified in a scope. -/
def simplify (r : Ruleset) (s : Scope) (t : Tree) : Action Tree := do
  return (← r.simplifyTracing s Simplify.usualLimit t).1

/-- A tree that may be empty, simplified in a scope. -/
def simplify? (r : Ruleset) (s : Scope) : Option Tree → Action (Option Tree)
  | none => return none
  | some t => return some (← r.simplify s t)

end Ruleset

namespace Scope

/-- The ruleset that is selected among those of a scope. -/
def ruleset (s : Scope) (selection : Selection) : Outcome Ruleset :=
  Ruleset.collect s.rulesets selection

/-- Source text simplified, as source text. -/
def simplifySource (s : Scope) (selection : Selection) (source : String) : Action String := do
  let r ← Action.ofOutcome (s.ruleset selection)
  let t ← r.simplify? s (← Action.ofOutcome (s.tree source))
  Action.ofFault (Tree.sourceOf? r.settings t)

/-- Source text simplified, as TeX. -/
def simplifyToTex (s : Scope) (selection : Selection) (source : String) : Action String := do
  let r ← Action.ofOutcome (s.ruleset selection)
  let t ← r.simplify? s (← Action.ofOutcome (s.tree source))
  Action.ofFault (Tex.ofTree? r.settings t)

end Scope

end MathExpr
