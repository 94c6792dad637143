import MathExpr.Text.Blank
import MathExpr.Token.Basic
import MathExpr.Tree.Basic
/-!
# Trees from tokens

Tokens are arranged into a tree by operator precedence. Operators and open brackets wait on a stack
until an operator that binds less tightly arrives or their bracket closes; finished trees collect in
the output, from which each operator and bracket takes its arguments. An open call or list counts the
commas directly inside it, so that it knows how many arguments to take.
-/

namespace MathExpr

/-- What waits on the stack. `start` is the number of finished trees when a bracket opened, and
`commas` the number of commas directly inside it so far. -/
inductive Pending where
  | op (o : Operator)
  /-- A round bracket around an expression. -/
  | group
  /-- The round bracket of a call. -/
  | call (name : String) (start commas : Nat)
  /-- A square bracket: a list literal, or a subscript if it follows a value. -/
  | square (isIndex : Bool) (start commas : Nat)
  deriving DecidableEq, Repr

/-- The stack, and the finished trees, latest first. -/
structure Arrangement where
  stack : List Pending
  output : List Tree

namespace Arrangement

/-- The arrangement of no tokens. -/
def empty : Arrangement := ⟨[], []⟩

/-- The output with the latest `n` trees made the arguments of a node. -/
def combine (head : Head) (label : String) (n : Nat) (output : List Tree) :
    Except Error (List Tree) :=
  if output.length < n then .error (.missingOperands label)
  else .ok (.node head (output.take n).reverse :: output.drop n)

/-- The output after an operator has taken its operands. -/
def apply (o : Operator) (output : List Tree) : Except Error (List Tree) :=
  combine (.op o) o.symbol (Operator.arity o.symbol) output

/-- Applies the operators on top of the stack for which `isReady` holds. -/
def applyWhile (isReady : Operator → Bool) : List Pending → List Tree → Except Error Arrangement
  | .op o :: stack, output =>
    if isReady o then do applyWhile isReady stack (← apply o output)
    else .ok ⟨.op o :: stack, output⟩
  | stack, output => .ok ⟨stack, output⟩

/-- Applies all operators down to the nearest bracket. -/
def applyAll (a : Arrangement) : Except Error Arrangement :=
  applyWhile (fun _ => true) a.stack a.output

/-- Whether an operator that waits is applied before a new one that is not written before its
operand. -/
def yieldsTo (new waiting : Operator) : Bool :=
  let p := Operator.precedence new.symbol
  let q := Operator.precedence waiting.symbol
  q < p || (p == q && !Operator.isRightAssociative new.symbol)

/-- The number of arguments of a bracket that closes: one more than its commas if anything has been
finished inside it. -/
def argumentCount (start commas : Nat) (output : List Tree) : Nat :=
  if start < output.length then commas + 1 else commas

/-- A finished tree. -/
def push (t : Tree) (a : Arrangement) : Arrangement :=
  ⟨a.stack, t :: a.output⟩

/-- An operator: those that bind more tightly are applied first, unless it is written before its
operand. -/
def operator (o : Operator) (a : Arrangement) : Except Error Arrangement := do
  let a ← if o.place = .before then .ok a else applyWhile (yieldsTo o) a.stack a.output
  return ⟨.op o :: a.stack, a.output⟩

/-- A comma, which has to stand directly inside a call or a square bracket. -/
def comma (a : Arrangement) : Except Error Arrangement := do
  let a ← a.applyAll
  match a.stack with
  | .call name start commas :: stack => return ⟨.call name start (commas + 1) :: stack, a.output⟩
  | .square isIndex start commas :: stack =>
    return ⟨.square isIndex start (commas + 1) :: stack, a.output⟩
  | _ => .error .commaOutsideCall

/-- A closing square bracket. -/
def closeSquare (a : Arrangement) : Outcome Arrangement := do
  let a ← a.applyAll.mapError .error
  match a.stack with
  | .square isIndex start commas :: stack =>
    let n := argumentCount start commas a.output
    if isIndex then
      if n = 1 then
        return ⟨stack, ← (combine (.call "listval") "listval" 2 a.output).mapError .error⟩
      else .error (.error (.indexCount n))
    else return ⟨stack, ← (combine .list "list" n a.output).mapError .error⟩
  | [] => .error (.error .unopenedSquare)
  | _ => .error (.fault .mismatchedBracket)

/-- A closing round bracket. -/
def closeRound (a : Arrangement) : Outcome Arrangement := do
  let a ← a.applyAll.mapError .error
  match a.stack with
  | .group :: stack => return ⟨stack, a.output⟩
  | .call name start commas :: stack =>
    let n := argumentCount start commas a.output
    let name := Operator.canonicalFunction name (Text.lower name)
    return ⟨stack, ← (combine (.call name) name n a.output).mapError .error⟩
  | [] => .error (.error .unopenedRound)
  | _ => .error (.fault .mismatchedBracket)

/-- Whether a square bracket after a token starts a list literal. -/
def startsList : Option Token → Bool
  | none | some (.op _) | some (.mark .openRound) | some (.mark .openSquare)
  | some (.mark .comma) => true
  | _ => false

/-- The arrangement after one more token, given the token before it. A function opens its bracket. -/
def step (previous : Option Token) (a : Arrangement) : Token → Outcome Arrangement
  | .number n => .ok (a.push (.leaf (.number n)))
  | .text s => .ok (a.push (.leaf (.plainText s)))
  | .boolean b => .ok (a.push (.leaf (.boolean b)))
  | .name s hints => .ok (a.push (.leaf (.name s hints)))
  | .op o => (a.operator o).mapError .error
  | .function name => .ok ⟨.call name a.output.length 0 :: a.stack, a.output⟩
  | .mark .openRound =>
    match previous with
    | some (.function _) => .ok a
    | _ => .ok ⟨.group :: a.stack, a.output⟩
  | .mark .closeRound => a.closeRound
  | .mark .openSquare =>
    .ok ⟨.square (!startsList previous) a.output.length 0 :: a.stack, a.output⟩
  | .mark .closeSquare => a.closeSquare
  | .mark .comma => a.comma.mapError .error

/-- The arrangement after a list of tokens. -/
def run (previous : Option Token) (a : Arrangement) : List Token → Outcome Arrangement
  | [] => .ok a
  | t :: ts => do run (some t) (← a.step previous t) ts

/-- The tree of an arrangement whose tokens are all there: nothing for no tokens. -/
def finish (a : Arrangement) : Except Error (Option Tree) := do
  let a ← a.applyAll
  match a.stack with
  | .square .. :: _ => .error .unclosedSquare
  | _ :: _ => .error .unclosedRound
  | [] =>
    match a.output with
    | [] => return none
    | [t] => return some t
    | _ => .error .missingOperator

end Arrangement

namespace Tree

/-- Reads a function that is a variable and no function as a product with it, where `isVariable` says
so of its key. -/
def withProducts (isVariable : String → Bool) (ts : List Token) : List Token :=
  ts.flatMap fun
    | .function name =>
      if isVariable (Text.lower name) then [.name name [], .op .times] else [.function name]
    | t => [t]

/-- The tree of a list of tokens. -/
def ofTokens (isVariable : String → Bool) (ts : List Token) : Outcome (Option Tree) := do
  let a ← Arrangement.empty.run none (withProducts isVariable ts)
  a.finish.mapError .error

/-- The tree of source text, nothing if the text is empty. `isVariable` says of a key whether a function
of that name is to be read as a product with a variable. -/
def ofSourceIn (isVariable : String → Bool) (s : String) : Outcome (Option Tree) := do
  let s := Text.strip s
  if s.isEmpty then return none
  ofTokens isVariable (← (Token.ofSource s).mapError .error)

/-- The tree of source text in which no variables are known. -/
def ofSource (s : String) : Outcome (Option Tree) := ofSourceIn (fun _ => false) s

end Tree

end MathExpr
