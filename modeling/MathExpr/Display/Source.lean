import MathExpr.Number.Written
import MathExpr.Text.Quoted
import MathExpr.Tree.Basic
/-!
# Trees as source text

A tree is written with the fewest brackets that keep its meaning, and without product signs where
reading puts them back. A number that is part of a tree binds like the operator that it is written
with: `-2` like a sign, `1 + 2*i` like a sum.
-/

namespace MathExpr

/-! ## Values -/

namespace Value

mutual

/-- A value as source text. -/
def sourceWith (settings : Settings) : Value → Except Fault String
  | number n => n.source settings
  | text s _ _ => .ok (Text.quote s)
  | boolean b => .ok (if b then "true" else "false")
  | name s hints => .ok (":".intercalate (hints ++ [s]))
  | list items => return "[" ++ ", ".intercalate (← sourceOf settings items) ++ "]"
  | set items => return "set(" ++ ", ".intercalate (← sourceOf settings items) ++ ")"
  | vector entries => do
    let texts ← entries.mapM fun x => Number.source settings (.real x)
    return "vector(" ++ ", ".intercalate texts ++ ")"
  | matrix m => do
    let rows ← m.rows.mapM fun row => do
      let texts ← row.mapM fun x => Number.source settings (.real x)
      return "[" ++ ", ".intercalate texts ++ "]"
    return "matrix(" ++ ", ".intercalate rows ++ ")"
  | range r => do
    let start ← Number.source settings (.real r.start)
    let stop ← Number.source settings (.real r.stop)
    if r.step == 1.0 then return start ++ ".." ++ stop
    return start ++ ".." ++ stop ++ "#" ++ (← Number.source settings (.real r.step))

/-- The values of a list as source text. -/
def sourceOf (settings : Settings) : List Value → Except Fault (List String)
  | [] => .ok []
  | v :: vs => return (← sourceWith settings v) :: (← sourceOf settings vs)

end

/-- A value as source text, with numbers rounded to the usual number of places. -/
def source (v : Value) : Except Fault String := v.sourceWith {}

end Value

/-! ## Brackets -/

/-- How an argument binds: like an operator, which may be a sign; an argument that is one piece binds
like none. -/
structure Binding where
  symbol : String
  isSign : Bool
  deriving DecidableEq, Repr

namespace Binding

/-- Whether a text occurs in another. -/
def occursIn (part : List Char) : List Char → Bool
  | [] => part.isEmpty
  | c :: rest => part.isPrefixOf (c :: rest) || occursIn part rest

/-- How a written number binds. -/
def ofNumber (text : String) : Option Binding :=
  let cs := text.toList
  if cs.head? = some '-' then some ⟨"-u", true⟩
  else if occursIn [' ', '+', ' '] cs || occursIn [' ', '-', ' '] cs then some ⟨"+", false⟩
  else if cs.contains '/' then some ⟨"/", false⟩
  else if cs.contains '*' || cs.contains ' ' then some ⟨"*", false⟩
  else if cs.contains '^' then some ⟨"^", false⟩
  else none

/-- How a tree binds. -/
def ofTree (settings : Settings) : Tree → Except Fault (Option Binding)
  | .node (.op o) _ => .ok (some ⟨o.symbol, Operator.isSign o.symbol⟩)
  | .leaf (.number n) => return ofNumber (← n.source settings)
  | .leaf (.range r) =>
    .ok (some ⟨if r.step == 0.0 || r.step == 1.0 then ".." else "#", false⟩)
  | _ => .ok none

/-- Whether the argument number `index` of `count` arguments of an operator has to be bracketed, to
keep its meaning when written out. -/
def needsBrackets (symbol : String) (count index : Nat) : Option Binding → Bool
  | none => false
  | some b =>
    let p := Operator.precedence symbol
    let q := Operator.precedence b.symbol
    if count = 1 then b.isSign || p < q
    else if 0 < index && b.isSign then true
    else if p < q then true
    else if q = p then
      if Operator.isRightAssociative symbol then index == 0 else 0 < index
    else false

end Binding

/-! ## Trees -/

namespace Tree

/-- The text between the operands of an operator. -/
def operatorText (symbol : String) : String :=
  match symbol with
  | "+u" => "+"
  | "-u" => "-"
  | "+" => " + "
  | "-" => " - "
  | "not" => "not "
  | "fact" => "!"
  | _ => if Operator.isWord symbol then " " ++ symbol ++ " " else symbol

/-- The text of an operator with a single operand. -/
def unaryText (symbol : String) : String :=
  match symbol with
  | "+u" | "-u" | "+" | "-" | "not" | "fact" => operatorText symbol
  | _ => if Operator.isWord symbol then symbol ++ " " else symbol

/-- Whether a text consists of digits, which a sign may precede and a fraction follow. -/
def isPlainNumber (text : List Char) : Bool :=
  let text := match text with
    | '-' :: rest => rest
    | _ => text
  let whole := text.takeWhile Char.isDigit
  !whole.isEmpty &&
    match text.drop whole.length with
    | [] => true
    | '.' :: rest => !rest.isEmpty && rest.all Char.isDigit
    | _ => false

/-- Whether the product sign between two written factors may be left out, because reading puts it
back: after a plain number or a closing bracket, and before a name or an opening bracket. A bracket
around a sign is not left to stand without a product sign. -/
def omitsTimes (a b : Tree) (left right : String) : Bool :=
  let leftEnds :=
    (match a with
      | leaf (.number _) => isPlainNumber left.toList
      | _ => false) || left.toList.getLast? == some ')'
  let rightStarts :=
    match b with
    | leaf (.name ..) => true
    | node (.op o) _ => right.toList.head? == some '(' && !Operator.isSign o.symbol
    | leaf (.number _) =>
      right.toList.head? == some '(' && !(['(', '-'].isPrefixOf right.toList)
    | _ => right.toList.head? == some '('
  leftEnds && rightStarts

/-- A text in brackets. -/
def bracketed (s : String) : String := "(" ++ s ++ ")"

/-- The written operands of an operator, bracketed where they have to be. -/
def operands (settings : Settings) (symbol : String) (args : List Tree) (texts : List String) :
    Except Fault (List String) :=
  ((args.zip texts).zipIdx).mapM fun ((arg, text), i) => do
    let binding ← Binding.ofTree settings arg
    return if Binding.needsBrackets symbol args.length i binding then bracketed text else text

/-- An operator with its written operands. A product has two factors. -/
def sourceOfOperator (settings : Settings) (o : Operator) (args : List Tree) (texts : List String) :
    Except Fault String := do
  match ← operands settings o.symbol args texts, args with
  | [text], _ =>
    return if o.place = .after || o.symbol == "fact" then text ++ unaryText o.symbol
      else unaryText o.symbol ++ text
  | [left, right], [a, b] =>
    return if o.symbol == "*" && omitsTimes a b left right then left ++ right
      else left ++ operatorText o.symbol ++ right
  | [], _ => if o.symbol == "*" then .error .outOfBounds else return ""
  | texts, _ =>
    if o.symbol == "*" then .error .outsideDomain
    else return (operatorText o.symbol).intercalate texts

/-- A function with its written arguments. A subscript is written after its value, which is bracketed
if it is an operator or a negative number. -/
def sourceOfCall (name : String) (args : List Tree) (texts : List String) : String :=
  match texts, args with
  | [target, index], [a, _] =>
    if name == "listval" then
      let isOpen := match a with
        | node (.op _) _ => true
        | leaf (.number _) => target.toList.head? == some '-'
        | _ => false
      (if isOpen then bracketed target else target) ++ "[" ++ index ++ "]"
    else name ++ "(" ++ ", ".intercalate texts ++ ")"
  | _, _ => name ++ "(" ++ ", ".intercalate texts ++ ")"

mutual

/-- A tree as source text, with settings that say whether numbers are written in full. -/
def sourceWith (settings : Settings) : Tree → Except Fault String
  | leaf v => v.sourceWith settings
  | node h args => do
    let texts ← sourcesWith settings args
    match h with
    | .list => return "[" ++ ", ".intercalate texts ++ "]"
    | .call name => return sourceOfCall name args texts
    | .op o => sourceOfOperator settings o args texts

/-- The trees of a list as source text. -/
def sourcesWith (settings : Settings) : List Tree → Except Fault (List String)
  | [] => .ok []
  | t :: ts => return (← sourceWith settings t) :: (← sourcesWith settings ts)

end

/-- A tree as source text. Numbers are written in full unless the settings ask for a precision or for
rounding. -/
def source (settings : Settings) (t : Tree) : Except Fault String :=
  t.sourceWith settings.orExact

/-- The source text of a tree that may be empty. -/
def sourceOf? (settings : Settings) : Option Tree → Except Fault String
  | none => .ok ""
  | some t => t.source settings

end Tree

end MathExpr
