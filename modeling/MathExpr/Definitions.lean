import MathExpr.Evaluate
import MathExpr.Text.Blank
/-!
# Definitions

Variables may be defined by expressions in one another. To compute a variable, those that its
definition mentions are computed first. Computed values are kept in the scope, also when a later
computation fails, so that each definition is evaluated at most once.
-/

namespace MathExpr

/-- The definition of a variable: its tree, or nothing if it is empty, and the names that it mentions. -/
structure Definition where
  tree : Option Tree
  dependsOn : List String

namespace Definition

/-- The definition written in source text, where `read` gives the tree of a text. -/
def ofSource (read : String → Outcome (Option Tree)) (source : Option String) :
    Outcome Definition := do
  let tree ← match source with
    | some s => read s
    | none => pure none
  return ⟨tree, ← FreeNames.ofTree? read [] tree⟩

/-- The definitions of named variables. Names are taken without blanks around them and in lower case. -/
def table (read : String → Outcome (Option Tree)) (sources : List (String × Option String)) :
    Outcome (Table Definition) :=
  sources.foldlM (fun t (name, source) => do
    let name := Text.strip name
    if name.isEmpty then .error (.error .emptyName)
    else return t.insert (Text.lower name) (← ofSource read source)) .empty

end Definition

/-- An action that may change a scope. The scope keeps its changes when the action fails. -/
abbrev Resolving (α : Type) := ExceptT Failure (StateT Scope (StateM Draws)) α

namespace Resolving

/-- An action that does not change the scope. -/
def ofAction {α : Type} (x : Action α) : Resolving α :=
  ExceptT.mk fun s => do return (← x.run, s)

/-- The value of a name in the scope. -/
def value? (name : String) : Resolving (Option Value) := do
  return (← get).value? name

/-- Changes the scope, which must not be frozen. -/
def change (f : Scope → Scope) : Resolving Unit := do
  match (← get).change f with
  | .ok s => set s
  | .error e => throw (.fault e)

/-- The same with another error in place of the one that is raised. -/
def withError {α : Type} (f : Error → Error) (x : Resolving α) : Resolving α :=
  tryCatch x fun
    | .error e => throw (.error (f e))
    | .fault e => throw (.fault e)

/-- The result and the scope that an action leaves behind. -/
def runIn {α : Type} (s : Scope) (x : Resolving α) : Action (α × Scope) := do
  let (result, s) ← liftM (StateT.run (ExceptT.run x) s)
  match result with
  | .ok a => return (a, s)
  | .error e => throw e

end Resolving

namespace Definition

/-- The error of a variable that is needed by another: what is missing altogether is reported as it is. -/
def asDependency (name : String) (e : Error) : Error :=
  match e with
  | .circularReference .. | .undefinedDefinition _ => e
  | e => .inDependency name e

/-- The error for a variable that needs itself, where `path` holds the variables that wait for it, latest
first. -/
def circular (path : List String) (name : String) : Error :=
  .circularReference name
    (" <- ".intercalate (name :: path.take (path.idxOf name + 1)))

/-- The value of a variable, computed in the scope after the variables that it depends on. `path` holds
the variables that wait for it, latest first. Each level of `depth` adds a defined variable to the path,
so that one level more than there are definitions is enough. -/
def computeWith (definitions : Table Definition) :
    (depth : Nat) → (path : List String) → (name : String) → Resolving Value
  | 0, _, _ => throw (.fault .tooDeep)
  | depth + 1, path, name => do
    let key := Text.lower name
    match ← Resolving.value? key with
    | some v => return v
    | none =>
      if path.contains key then throw (.error (circular path key))
      else
        match definitions.find? key with
        | none => throw (.error (.undefinedDefinition key))
        | some d =>
          d.dependsOn.forM fun dependency => do
            if (← Resolving.value? dependency).isNone then
              let _ ← Resolving.withError (asDependency dependency)
                (computeWith definitions depth (key :: path) dependency)
          match d.tree with
          | none => throw (.error (.emptyDefinition key))
          | some t =>
            let v ← Resolving.withError (.inDefinition key ·)
              (Resolving.ofAction ((← get).eval t))
            Resolving.change fun s => s.bind key v
            return v

/-- The value of a variable, computed in the scope after the variables that it depends on. -/
def compute (definitions : Table Definition) (path : List String) (name : String) :
    Resolving Value :=
  computeWith definitions (definitions.entries.length + 1) path name

end Definition

end MathExpr
