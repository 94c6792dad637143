import MathExpr.Token.Lexeme
import MathExpr.Number.Basic
import MathExpr.Operator
/-!
# Tokens

Tokens say what lexemes leave open: where a product is implied, which names are functions or
constants, and whether an operator stands before, between or after its operands. All of this is
decided from the token before, and for functions from the bracket that follows at once.
-/

namespace MathExpr

/-- A token. -/
inductive Token where
  | number (n : Number)
  | text (content : String)
  | boolean (b : Bool)
  | name (name : String) (hints : List String)
  | op (o : Operator)
  | function (name : String)
  | mark (m : Mark)
  deriving DecidableEq

namespace Token

/-- The numbers that have names, which are written in any case. -/
def constant? (key : String) : Option Number :=
  match key with
  | "e" => some (.real Real.euler)
  | "pi" => some (.real Real.pi)
  | "i" => some (.complex Complex.i)
  | "infinity" | "infty" => some (.real Real.infinity)
  | "nan" => some (.real Real.nan)
  | _ => none

/-- Whether a token ends a value that a product sign may be left out after. -/
def endsFactor : Option Token → Bool
  | some (number _) | some (name ..) | some (mark .closeRound) => true
  | _ => false

/-- Whether a value is expected after a token. -/
def expectsValue : Option Token → Bool
  | none | some (mark .openRound) | some (mark .comma) | some (mark .openSquare) => true
  | some (op o) => o.place != .after
  | _ => false

/-- A token with the product sign that is implied before it, given the token before. -/
def withProduct (previous : Option Token) (t : Token) : List Token :=
  if endsFactor previous then [op .times, t] else [t]

/-- The tokens of a name. -/
def ofName (previous : Option Token) (hints : List String) (s : String) (applied : Bool) :
    List Token :=
  withProduct previous <|
    if applied then function s
    else
      match constant? (Text.lower s) with
      | some n => number n
      | none => name s hints

/-- The tokens of a lexeme, given the token before. -/
def ofLexeme (previous : Option Token) : Lexeme → List Token
  | .number x => withProduct previous (number (.real x))
  | .text s => [text s]
  | .boolean b => [boolean b]
  | .operator symbol => [op (.ofSymbol (expectsValue previous) symbol)]
  | .name hints s applied => ofName previous hints s applied
  | .mark .openRound => withProduct previous (mark .openRound)
  | .mark m => [mark m]

/-- The tokens of a list of lexemes, given the token before. -/
def ofLexemes (previous : Option Token) : List Lexeme → List Token
  | [] => []
  | l :: ls =>
    let ts := ofLexeme previous l
    ts ++ ofLexemes (ts.getLast?.or previous) ls

/-- The tokens of source text. -/
def ofSource (s : String) : Except Error (List Token) :=
  return ofLexemes none (← Lexeme.scan s.toList)

end Token

end MathExpr
