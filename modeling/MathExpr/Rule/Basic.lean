import MathExpr.Pattern.Basic
import MathExpr.Settings
import MathExpr.Table
/-!
# Rules and rulesets

A rule replaces the trees that match its pattern and meet its conditions. A ruleset is an ordered list
of rules together with display flags. Rules have serial numbers, so that a ruleset can be without
repetitions and a rule can be taken out of it.
-/

namespace MathExpr

/-- A rule. The conditions and the result are trees in the names that the pattern captures under; an
empty condition is kept as `none`. -/
structure Rule where
  serial : Nat
  name : String
  pattern : Pattern
  conditions : List (Option Tree)
  result : Tree

namespace Rule

/-- The first name in a tree that is none of the given keys. -/
def unboundName? (keys : List String) (t : Tree) : Option String :=
  t.subtrees.findSome? fun s =>
    s.name?.bind fun name => if keys.contains (Text.lower name) then none else some name

/-- The rule with the given parts. A name in the result has to be captured by the pattern, or to stand
for itself in it. -/
def make (serial : Nat) (name : String) (pattern : Pattern) (conditions : List (Option Tree))
    (result : Option Tree) : Except Error Rule :=
  match result with
  | none => .error (.noReplacement name)
  | some result =>
    match unboundName? (pattern.captureNames ++ pattern.literalNames) result with
    | some unbound => .error (.unboundReplacement unbound name)
    | none => .ok ⟨serial, name, pattern, conditions, result⟩

/-- The rule written in source text. Without a name it is called by its pattern. -/
def ofSource (serial : Nat) (name pattern : String) (conditions : List String)
    (result : Option String) : Outcome Rule := do
  let p ← Pattern.ofSource pattern
  let conditions ← conditions.mapM Tree.ofSource
  let result ← match result with
    | some s => Tree.ofSource s
    | none => pure none
  (make serial (if name.isEmpty then pattern else name) p conditions result).mapError .error

/-- Whether a list holds a rule, by serial number. -/
def isIn (r : Rule) (rs : List Rule) : Bool :=
  rs.any fun s => s.serial == r.serial

/-- A list of rules without repetitions: the first of each is kept. -/
def distinct (rs : List Rule) : List Rule :=
  rs.foldl (fun seen r => if r.isIn seen then seen else seen ++ [r]) []

end Rule

/-- A ruleset. -/
structure Ruleset where
  rules : List Rule
  flags : Table Bool

namespace Ruleset

/-- The display flags that a ruleset always has. -/
def flagNames : List String := ["fractionnumbers", "rowvector"]

/-- The ruleset of a list of rules, with some flags set. -/
def make (rules : List Rule) (flags : Table Bool) : Ruleset :=
  ⟨Rule.distinct rules,
    (Table.ofList (flagNames.map fun f => (f, false))).insertAll flags.entries⟩

/-- The display settings that the flags stand for. -/
def settings (r : Ruleset) : Settings :=
  { fractions := (r.flags.find? "fractionnumbers").getD false
    rowVector := (r.flags.find? "rowvector").getD false
    exact := r.flags.find? "exact" }

end Ruleset

/-- An entry of a selection: the name of a ruleset or flag, a rule, or a ruleset. -/
inductive Entry where
  | named (s : String)
  | rule (r : Rule)
  | ruleset (r : Ruleset)

/-- A choice of rules. A text is a list of names with commas between. -/
inductive Selection where
  | nothing
  | text (s : String)
  | entries (es : List Entry)
  | ruleset (r : Ruleset)

end MathExpr
