import MathExpr.Operator
import MathExpr.Value.Basic
/-!
# Expression trees

A tree is a value, or an operator, function or list literal over argument trees. The number of operands
of a node is the number of its arguments.
-/

namespace MathExpr

/-- What stands at a node with arguments. -/
inductive Head where
  | op (o : Operator)
  | call (name : String)
  | list
  deriving DecidableEq, Repr

/-- An expression tree. -/
inductive Tree where
  | leaf (v : Value)
  | node (head : Head) (args : List Tree)

namespace Head

/-- The kind of a node, as expressions name it. -/
def kind : Head → String
  | op _ => "op"
  | call _ => "function"
  | list => "list"

/-- The name of an operator or function. -/
def name? : Head → Option String
  | op o => some o.symbol
  | call name => some name
  | list => none

/-- The name of an operator or function in lower case, under which it is looked up. -/
def key? (h : Head) : Option String := h.name?.map Text.lower

/-- Whether two heads have the same kind and name. Where an operator is written does not matter. -/
def eqv : Head → Head → Bool
  | op a, op b => a.symbol == b.symbol
  | call a, call b => a == b
  | list, list => true
  | _, _ => false

end Head

namespace Tree

/-- The kind of a tree, as expressions name it. -/
def kind : Tree → String
  | leaf v => v.kind
  | node h _ => h.kind

/-- The name that a tree consists of. -/
def name? : Tree → Option String
  | leaf (.name s _) => some s
  | _ => none

/-- The key of the name that a tree consists of. -/
def key? (t : Tree) : Option String := t.name?.map Text.lower

/-- Whether a tree is a list literal, and then its elements. -/
def elements? : Tree → Option (List Tree)
  | node .list args => some args
  | _ => none

/-- The arguments of a node. -/
def args : Tree → List Tree
  | leaf _ => []
  | node _ args => args

def isLeaf : Tree → Bool
  | leaf _ => true
  | node .. => false

mutual

/-- Equality of trees: of heads and values, in the same arrangement. -/
def eqv : Tree → Tree → Bool
  | leaf a, leaf b => a.eqv b
  | node h xs, node k ys => h.eqv k && eqvAll xs ys
  | _, _ => false

/-- Equality of lists of trees, element by element. -/
def eqvAll : List Tree → List Tree → Bool
  | [], [] => true
  | x :: xs, y :: ys => eqv x y && eqvAll xs ys
  | _, _ => false

end

mutual

/-- A tree and all its parts, each before its own parts. -/
def subtrees : Tree → List Tree
  | leaf v => [leaf v]
  | node h args => node h args :: subtreesOf args

/-- The trees of a list and all their parts. -/
def subtreesOf : List Tree → List Tree
  | [] => []
  | t :: ts => subtrees t ++ subtreesOf ts

end

mutual

/-- A measure of trees that is larger than that of every argument. -/
def size : Tree → Nat
  | leaf _ => 1
  | node _ args => 1 + sizeOf args

/-- The sum of the measures of trees. -/
def sizeOf : List Tree → Nat
  | [] => 0
  | t :: ts => 1 + size t + sizeOf ts

end

/-- A binary operator applied to two trees. -/
def binary (symbol : String) (a b : Tree) : Tree := node (.op ⟨symbol, .between⟩) [a, b]

end Tree

end MathExpr
