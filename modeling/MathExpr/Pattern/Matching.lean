import MathExpr.Pattern.Basic
import MathExpr.Table
/-!
# Matching

Matches trees against patterns. A match is found by walking the pattern: each part says of a tree and of
what has been captured so far whether it matches, and what has been captured then. The operands of a
commutative operator may be matched in any order; the orders are tried in turn, and the first that fits
counts.
-/

namespace MathExpr

/-- The trees that a pattern has captured. -/
abbrev Captures := Table Tree

namespace Captures

/-- The captures with one more tree. A key that has a tree already keeps to equal ones. -/
def bind (key : String) (t : Tree) (found : Captures) : Option Captures :=
  match found.find? key with
  | some u => if u.eqv t then some (found.insert key t) else none
  | none => some (found.insert key t)

end Captures

namespace Tree

/-- The operands of a chain of a binary operator, from the left to the right. -/
def operandsOf (symbol : String) : Tree → List Tree
  | .node (.op o) [a, b] =>
    if o.symbol = symbol then operandsOf symbol a ++ operandsOf symbol b
    else [.node (.op o) [a, b]]
  | t => [t]

/-- The chain of a binary operator with the given operands, from the left to the right; for no operands
the value that changes nothing as an operand, if the operator has one. -/
def chain? (symbol : String) : List Tree → Option Tree
  | t :: ts => some (ts.foldl (binary symbol) t)
  | [] =>
    match symbol with
    | "+" => some (.leaf (.nat 0))
    | "*" => some (.leaf (.nat 1))
    | "and" => some (.leaf (.boolean true))
    | "or" => some (.leaf (.boolean false))
    | _ => none

end Tree

namespace Pattern

/-- A way to match a tree, given what has been captured before. -/
abbrev Matcher := Tree → Captures → Option Captures

/-- The result of the first element of a list, taken together with the others in order, that has one.
`before` stands for elements before the list, latest first. -/
def firstOf {α β : Type} (f : α → List α → Option β) (before : List α) : List α → Option β
  | [] => none
  | a :: after =>
    match f a (before.reverse ++ after) with
    | some b => some b
    | none => firstOf f (a :: before) after

/-- Matches each matcher with a tree of its own, and then hands on the trees that are left. -/
def assign (finish : List Tree → Captures → Option Captures) :
    List Matcher → List Tree → Captures → Option Captures
  | [], ts, found => finish ts found
  | m :: ms, ts, found =>
    firstOf (fun t rest => (m t found).bind fun found => assign finish ms rest found) [] ts

/-- Matches trees with matchers one by one. -/
def pairwise : List Matcher → List Tree → Captures → Option Captures
  | [], [], found => some found
  | m :: ms, t :: ts, found => (m t found).bind fun found => pairwise ms ts found
  | _, _, _ => none

/-- Whether a pattern takes all operands that are left. -/
def takesRest : Pattern → Bool
  | anyMore | capture anyMore _ => true
  | _ => false

/-- Matches the operands of a chain of an operator in any order. Each matcher says whether it takes all
operands that are left, which only the last one does. -/
def anyOrder (symbol : String) (ms : List (Bool × Matcher)) (t : Tree) (found : Captures) :
    Option Captures :=
  let ts := t.operandsOf symbol
  match ms.getLast? with
  | some (true, rest) =>
    let ms := ms.dropLast
    if ts.length < ms.length then none
    else
      assign (fun left found => (Tree.chain? symbol left).bind fun t => rest t found)
        (ms.map Prod.snd) ts found
  | _ =>
    if ts.length < ms.length then none
    else assign (fun left found => if left.isEmpty then some found else none)
      (ms.map Prod.snd) ts found

/-- Whether a pattern may stand for a node, as far as their heads go. Names of operators and functions
are equal up to case. -/
def headFits (pattern actual : Head) : Bool :=
  pattern.kind == actual.kind && pattern.key? == actual.key?

/-- The operator whose operands may be matched in any order. -/
def commutative? : Head → Option String
  | .op o => if Operator.isCommutative o.symbol then some o.symbol else none
  | _ => none

mutual

/-- The matcher of a pattern. `commute` says whether the operands of commutative operators may be
matched in any order. -/
def matcher (commute : Bool) : Pattern → Matcher
  | anything, _, found | anyMore, _, found => some found
  | capture p key, t, found => (matcher commute p t found).bind (Captures.bind key t)
  | ofKind kind, t, found => if t.kind = kind then some found else none
  | anyOf ps, t, found => (matchers commute ps).findSome? fun m => m t found
  | allOf ps, t, found => (matchers commute ps).foldlM (fun found m => m t found) found
  | excluding p, t, found => if (matcher commute p t found).isNone then some found else none
  | commuting p, t, found => matcher true p t found
  | literal v, .leaf w, found => if v.eqv w then some found else none
  | literal _, .node .., _ => none
  | node _ _, .leaf _, _ => none
  | node h ps, .node k ts, found =>
    if headFits h k then
      match commutative? h with
      | some symbol =>
        if commute ∧ ps.length = 2 then
          anyOrder symbol (operands symbol ps) (.node k ts) found
        else pairwise (matchers commute ps) ts found
      | none => pairwise (matchers commute ps) ts found
    else none

/-- The matchers of the patterns of a list. -/
def matchers (commute : Bool) : List Pattern → List Matcher
  | [] => []
  | p :: ps => matcher commute p :: matchers commute ps

/-- The matchers of the operands of a chain of an operator, in any order. Each comes with whether it takes
all operands that are left. -/
def operands (symbol : String) : List Pattern → List (Bool × Matcher)
  | [] => []
  | p :: ps =>
    (match p with
      | node (.op o) qs =>
        if o.symbol = symbol ∧ qs.length = 2 then operands symbol qs
        else [(false, matcher true (node (.op o) qs))]
      | p => [(p.takesRest, matcher true p)]) ++ operands symbol ps

end

/-- What a pattern captures of a tree that it matches. -/
def find (p : Pattern) (t : Tree) (commute : Bool) : Option Captures :=
  matcher commute p t .empty

end Pattern

end MathExpr
