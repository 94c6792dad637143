/-!
# Operators

The operators of the language: how tightly each binds, how many operands it takes, and the forms that
a sign takes before and after a value. Precedence is counted in half steps, smaller numbers binding
more tightly, so that the signs of a number can stand between a power and a product.
-/

namespace MathExpr

/-- Where an operator is written: before its operand, between two, or after its operand. -/
inductive Placement where
  | before
  | between
  | after
  deriving DecidableEq, Repr

/-- An operator as it occurs in an expression. -/
structure Operator where
  symbol : String
  place : Placement
  deriving DecidableEq, Repr

namespace Operator

/-- The product sign. -/
def times : Operator := ⟨"*", .between⟩

/-- How tightly each operator binds, in half steps. -/
def precedences : List (String × Nat) := [
  (";", 0), ("fact", 2), ("not", 2), ("^", 4), ("+u", 5), ("-u", 5), ("*", 6), ("/", 6), ("+", 8),
  ("-", 8), ("|", 10), ("..", 10), ("#", 12), ("except", 13), ("in", 13), ("<", 14), (">", 14),
  ("<=", 14), (">=", 14), ("<>", 16), ("=", 16), ("isa", 18), ("and", 22), ("or", 24), ("xor", 26),
  ("implies", 28)]

/-- How tightly an operator binds; one that is not known binds most tightly. -/
def precedence (symbol : String) : Nat :=
  (precedences.lookup symbol).getD 0

/-- Whether of two operators of the same precedence the right one is applied first. -/
def isRightAssociative (symbol : String) : Bool :=
  ["^", "+u", "-u"].contains symbol

/-- The number of operands. -/
def arity (symbol : String) : Nat :=
  if ["!", "not", "fact", "+u", "-u"].contains symbol then 1 else 2

/-- The one name of operators with several spellings. -/
def canonical (symbol : String) : String :=
  match symbol with
  | "&" | "&&" => "and"
  | "divides" => "|"
  | "||" => "or"
  | _ => symbol

/-- The form that an operator takes where a value is expected. -/
def beforeForm? (symbol : String) : Option String :=
  match symbol with
  | "+" => some "+u"
  | "-" => some "-u"
  | "!" | "not" => some "not"
  | _ => none

/-- The form that an operator takes after a value. -/
def afterForm? (symbol : String) : Option String :=
  match symbol with
  | "!" => some "fact"
  | _ => none

/-- The operator written by a symbol, by whether a value is expected in its place. -/
def ofSymbol (expectsValue : Bool) (symbol : String) : Operator :=
  let symbol := canonical symbol
  if expectsValue then
    match beforeForm? symbol with
    | some form => ⟨form, .before⟩
    | none => ⟨symbol, .between⟩
  else
    match afterForm? symbol with
    | some form => ⟨form, .after⟩
    | none => ⟨symbol, .between⟩

/-- Whether an operator may be matched with its operands in any order. -/
def isCommutative (symbol : String) : Bool :=
  ["*", "+", "and", "or", "="].contains symbol

/-- Whether an operator is written before its operand. -/
def isSign (symbol : String) : Bool :=
  ["+u", "-u", "not"].contains symbol

/-- Whether an operator is a word, which is written between blanks. -/
def isWord (symbol : String) : Bool :=
  ["and", "or", "not", "xor", "isa", "except", "in", "implies", "divides"].contains symbol

/-- The one name of functions with several names. -/
def canonicalFunction (name key : String) : String :=
  match key with
  | "sqr" => "sqrt"
  | "gcf" => "gcd"
  | "sgn" => "sign"
  | "len" | "length" => "abs"
  | _ => name

end Operator

end MathExpr
