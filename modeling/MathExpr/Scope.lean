import MathExpr.Rule.Basic
import MathExpr.Signature
/-!
# Scopes

A scope holds the variables, functions and rulesets that an evaluation sees. Scopes are built from
layers: of variables and rulesets the last layer counts, while the signatures of a function accumulate.
Variables and functions are kept under their names in lower case.
-/

namespace MathExpr

/-- Entries for a scope. -/
structure Layer where
  values : Table Value := .empty
  functions : Table (List Signature) := .empty
  rulesets : Table Selection := .empty

/-- A scope. A frozen scope is not to be changed. -/
structure Scope extends Layer where
  frozen : Bool := false

namespace Scope

/-- The scope without entries. -/
def empty : Scope := {}

/-- The scope with the entries of one more layer. -/
def merge (s : Scope) (l : Layer) : Scope where
  values := s.values.insertAll (l.values.entries.map fun e => (Text.lower e.1, e.2))
  functions := l.functions.entries.foldl (fun t e =>
    let key := Text.lower e.1
    t.insert key (Signature.merge ((t.find? key).getD []) e.2)) s.functions
  rulesets := s.rulesets.insertAll l.rulesets.entries
  frozen := s.frozen

/-- The scope built from layers. -/
def ofLayers (layers : List Layer) : Scope := layers.foldl merge empty

/-- A scope with the same entries that can be changed on its own. The signatures of each function are put
in order. -/
def child (s : Scope) : Scope :=
  { s with functions := s.functions.mapEntries Signature.inOrder, frozen := false }

/-- The value of a variable. -/
def value? (s : Scope) (name : String) : Option Value :=
  s.values.find? (Text.lower name)

/-- Whether a name has a value. -/
def binds (s : Scope) (name : String) : Bool := (s.value? name).isSome

/-- The signatures of a function or operator. -/
def signatures (s : Scope) (name : String) : List Signature :=
  (s.functions.find? (Text.lower name)).getD []

/-- Whether a name that is used as a function means a product with a variable instead. -/
def readsAsProduct (s : Scope) (name : String) : Bool :=
  s.binds name && (s.signatures name).isEmpty

/-- The tree of source text in a scope. -/
def tree (s : Scope) (source : String) : Outcome (Option Tree) :=
  Tree.ofSourceIn s.readsAsProduct source

/-- The scope with a variable bound. -/
def bind (s : Scope) (name : String) (v : Value) : Scope :=
  { s with values := s.values.insert (Text.lower name) v }

/-- The scope with several variables bound, one after the other. -/
def bindAll (s : Scope) (bindings : List (String × Value)) : Scope :=
  bindings.foldl (fun s b => s.bind b.1 b.2) s

/-- The scope without a variable. -/
def unbind (s : Scope) (name : String) : Scope :=
  { s with values := s.values.erase (Text.lower name) }

/-- A child scope without some variables. -/
def without (s : Scope) (names : List String) : Scope :=
  names.foldl unbind s.child

/-- A child scope without variables. -/
def withoutVariables (s : Scope) : Scope := { s.child with values := .empty }

/-- The scope with one more signature, after those that its name has. -/
def addSignature (s : Scope) (f : Signature) : Scope :=
  { s with functions := s.functions.insert (Text.lower f.name) (s.signatures f.name ++ [f]) }

/-- The scope with a ruleset under a name. -/
def addRuleset (s : Scope) (name : String) (r : Selection) : Scope :=
  { s with rulesets := s.rulesets.insert name r }

/-- The scope, which must not be changed from now on. -/
def freeze (s : Scope) : Scope := { s with frozen := true }

/-- A change of a scope, which breaks down if the scope is frozen. -/
def change (s : Scope) (f : Scope → Scope) : Except Fault Scope :=
  if s.frozen then .error .frozenScope else .ok (f s)

end Scope

end MathExpr
