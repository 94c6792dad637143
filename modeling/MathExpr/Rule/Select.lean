import MathExpr.Rule.Basic
import MathExpr.Text.Blank
/-!
# Selecting rules

A selection names the rulesets whose rules are wanted. An exclamation mark before a name takes the rules
of that ruleset out again, or switches a display flag off. The ruleset behind a name may be a selection
itself.
-/

namespace MathExpr

namespace Selection

/-- The parts of a text between commas. -/
def splitCommas (s : String) : List String :=
  go [] s.toList
where
  go (part : List Char) : List Char → List String
    | [] => [String.ofList part.reverse]
    | ',' :: rest => String.ofList part.reverse :: go [] rest
    | c :: rest => go (c :: part) rest

/-- The entries of a selection. -/
def toEntries : Selection → List Entry
  | nothing => []
  | text s =>
    ((splitCommas s).map Text.strip).filterMap fun s => if s.isEmpty then none else some (.named s)
  | entries es => es
  | ruleset r => [.ruleset r]

end Selection

namespace Ruleset

/-- What a name stands for. The case of a name counts only where several differ in it alone. -/
def lookup (sets : Table Selection) (name : String) : Except Error Selection :=
  match sets.find? name with
  | some s => .ok s
  | none =>
    match sets.entries.find? fun e => Text.lower e.1 == Text.lower name with
    | some e => .ok e.2
    | none => .error (.undefinedRuleset name)

/-- An entry by name: whether it is to be taken out, and the name. -/
def splitExclusion (s : String) : Bool × String :=
  match s.toList with
  | '!' :: rest => (true, Text.strip (String.ofList rest))
  | _ => (false, s)

/-- The flags of a table that are set. -/
def setFlags (flags : Table Bool) : List (String × Bool) :=
  flags.entries.filter fun e => e.2

/-- The rules and flags collected so far with those of one more entry. -/
def addEntry (sets : Table Selection) (collect : Selection → Outcome Ruleset)
    (sofar : List Rule × Table Bool) : Entry → Outcome (List Rule × Table Bool)
  | .rule r => .ok (sofar.1 ++ [r], sofar.2)
  | .ruleset r => .ok (sofar.1 ++ r.rules, sofar.2)
  | .named s => do
    let (excluded, name) := splitExclusion s
    if flagNames.contains (Text.lower name) then
      return (sofar.1, sofar.2.insert (Text.lower name) !excluded)
    else
      let r ← collect (← (lookup sets name).mapError .error)
      if excluded then return (sofar.1.filter fun rule => !rule.isIn r.rules, sofar.2)
      else return (sofar.1 ++ r.rules, sofar.2.insertAll (setFlags r.flags))

/-- The ruleset of a selection whose names lead to others at most `depth` times in a row. -/
def collectWith (sets : Table Selection) : (depth : Nat) → Selection → Outcome Ruleset
  | _, .ruleset r => .ok r
  | 0, _ => .error (.fault .tooDeep)
  | depth + 1, s => do
    let (rules, flags) ← s.toEntries.foldlM (addEntry sets (collectWith sets depth)) ([], .empty)
    return make rules flags

/-- The ruleset of a selection, given what names stand for. No name leads to itself, so that names lead
to others at most as often as there are names. -/
def collect (sets : Table Selection) (s : Selection) : Outcome Ruleset :=
  collectWith sets (sets.entries.length + 1) s

/-- The ruleset of a selection where names may stand for nothing at all: then only a ruleset itself can
be selected. -/
def collect? : Option (Table Selection) → Selection → Outcome Ruleset
  | some sets, s => collect sets s
  | none, .ruleset r => .ok r
  | none, _ => .error (.error .noRulesets)

end Ruleset

end MathExpr
