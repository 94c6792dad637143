import MathExpr.CommandLine.Arguments
import MathExpr.Display.Outline
import MathExpr.Library.Scope
import MathExpr.Simplify
import MathExpr.Variables
/-!
# Carrying out a request

Evaluates, simplifies or outlines the expression of a request. Errors are reported one to a line, with
their kinds.
-/

namespace MathExpr.CommandLine

/-- What a request leaves behind: the status, and what it has written. -/
structure Report where
  status : Nat
  output : String
  errors : String
  deriving DecidableEq, Repr

/-- A line of an error report. -/
def errorLine (e : Error) : String :=
  "  ✗ " ++ e.message ++ " [" ++ e.kind ++ "]\n"

namespace Request

/-- The scope of a request: the built-in one, with the variables that the request defines. -/
def scope (r : Request) : Action Scope := do
  if r.definitions.isEmpty then return Library.scope
  else
    let sources := (Table.ofList r.definitions).entries.map fun d => (d.1, some d.2)
    let definitions ← Action.ofOutcome (Definition.table Library.scope.tree sources)
    return (← VariableSet.make Library.scope definitions none).scope

/-- What a request writes, nothing if the expression has no value. -/
def result? (r : Request) : Action (Option String) := do
  let s ← r.scope
  let t ← Action.ofOutcome (s.tree r.expression)
  if r.outline then return some (← Action.ofFault (Tree.outline? 0 t))
  else
    match r.rules, t with
    | some rules, t =>
      let rules ← Action.ofOutcome (s.ruleset (.text rules))
      let t ← rules.simplify? s t
      if r.tex then return some (← Action.ofFault (Tex.ofTree? rules.settings t))
      else return some (← Action.ofFault (Tree.sourceOf? rules.settings t))
    | none, none => return none
    | none, some t =>
      let v ← s.eval t
      if r.tex then return some (← Action.ofFault (Tex.ofTree {} (.leaf v)))
      else return some (← Action.ofFault v.source)

/-- The report on a request. An error is reported; a breakdown is not held up. -/
def report (r : Request) : Action Report := do
  match ← Action.attempt r.result? with
  | .ok (some text) => return ⟨0, text ++ "\n", ""⟩
  | .ok none => return ⟨0, "", ""⟩
  | .error e => return ⟨1, "", errorLine e⟩

end Request

end MathExpr.CommandLine
