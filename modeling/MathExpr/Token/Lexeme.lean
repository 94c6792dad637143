import MathExpr.Failure
import MathExpr.Real.Decimal
import MathExpr.Text.Case
/-!
# Lexemes

The pieces that source text is cut into: numbers, texts in quotes, booleans, operators, names and
punctuation. Blanks and comments between them are left out. At each place the kinds of lexeme are
tried in a fixed order, so that a word that is an operator is not read as a name.

Each reader gives the number of characters that it takes, and scanning goes on behind them.
-/

namespace MathExpr

/-- Punctuation. -/
inductive Mark where
  | openRound
  | closeRound
  | openSquare
  | closeSquare
  | comma
  deriving DecidableEq, Repr

/-- The character of a punctuation mark. -/
def Mark.char : Mark → Char
  | openRound => '('
  | closeRound => ')'
  | openSquare => '['
  | closeSquare => ']'
  | comma => ','

/-- A piece of source text. A name is `applied` if an opening bracket follows it at once. -/
inductive Lexeme where
  | number (x : Float)
  | text (content : String)
  | boolean (b : Bool)
  | operator (symbol : String)
  | name (hints : List String) (name : String) (applied : Bool)
  | mark (m : Mark)
  deriving DecidableEq

namespace Lexeme

/-! ## Classes of characters -/

/-- Blanks between lexemes. -/
def isSkipped (c : Char) : Bool :=
  c == ' ' || c == '\t' || c == '\r' || c == '\n'

def isAsciiLetter (c : Char) : Bool := c.isAlpha

/-- Characters that a word goes on with, so that no word ends before one. -/
def isWordChar (c : Char) : Bool :=
  c.isAlphanum || c == '_' || c == '\x27'

/-- Characters inside a name, behind the first. -/
def isNameChar (c : Char) : Bool := c.isAlphanum || c == '_'

/-- Whether a character is a letter in either case. Two letters have a third form: the dotless and the
dotted capital i, and the long s. -/
def isForm (letter c : Char) : Bool :=
  c.toLower == letter || (letter == 'i' && (c.toNat == 0x130 || c.toNat == 0x131)) ||
    (letter == 's' && c.toNat == 0x17f)

/-! ## Readers -/

/-- The length of a comment, which ends before the line does. -/
def commentLength : List Char → Option Nat
  | '/' :: '/' :: rest => some (2 + (rest.takeWhile (· != '\n')).length)
  | _ => none

/-- The digits of a number before and after its point. A point belongs to the number only if a digit
follows. -/
def numberDigits (cs : List Char) : List Char × List Char :=
  let whole := cs.takeWhile Char.isDigit
  match cs.drop whole.length with
  | '.' :: rest => (whole, rest.takeWhile Char.isDigit)
  | _ => (whole, [])

/-- A number and its length. -/
def number? (cs : List Char) : Option (Float × Nat) :=
  match numberDigits cs with
  | ([], _) => none
  | (whole, []) => some (Real.ofDigits whole [] 0, whole.length)
  | (whole, fraction) =>
    some (Real.ofDigits whole fraction 0, whole.length + 1 + fraction.length)

/-- The length of a text up to its closing quote. A backslash takes the next character with it, which
must not end the line. -/
def quotedLength (quote : Char) : List Char → Option Nat
  | [] => none
  | '\\' :: c :: rest => if c = '\n' then none else (quotedLength quote rest).map (· + 2)
  | c :: rest =>
    if c = quote then some 0
    else if c = '\\' then none
    else (quotedLength quote rest).map (· + 1)

/-- The characters that the inside of a quoted text stands for. `\n` is a new line, an escaped brace
stays escaped, and any other escaped character stands for itself. -/
def unescapeChars : List Char → List Char
  | '\\' :: c :: rest =>
    if c = 'n' then '\n' :: unescapeChars rest
    else if c = '\x7b' ∨ c = '\x7d' then '\\' :: c :: unescapeChars rest
    else c :: unescapeChars rest
  | c :: rest => c :: unescapeChars rest
  | [] => []

/-- The text that the inside of a quoted text stands for. -/
def unescape (s : String) : String :=
  String.ofList (unescapeChars s.toList)

/-- A quoted text and its length. -/
def text? : List Char → Option (String × Nat)
  | [] => none
  | c :: rest =>
    if c = '\x22' ∨ c = '\x27' then
      (quotedLength c rest).map fun n => (String.ofList (unescapeChars (rest.take n)), n + 2)
    else none

/-- Whether the text starts with a word, in any case, that ends there. -/
def startsWithWord (cs word : List Char) : Bool :=
  word.length ≤ cs.length && (List.zipWith isForm word cs).all id &&
    ((cs.drop word.length).head?.all fun c => !isWordChar c)

/-- The length of the first of some words that the text starts with. -/
def wordLength (words : List String) (cs : List Char) : Option Nat :=
  (words.find? fun word => startsWithWord cs word.toList).map String.length

/-- A boolean and its length. -/
def boolean? (cs : List Char) : Option (Bool × Nat) :=
  (wordLength ["true", "false"] cs).map fun n =>
    (Text.lower (String.ofList (cs.take n)) == "true", n)

/-- The operators that are words. -/
def operatorWords : List String :=
  ["not", "and", "or", "xor", "implies", "isa", "except", "in", "divides"]

/-- The operators that are signs; of two that start alike the longer one comes first. -/
def operatorSigns : List String :=
  ["..", "#", "<=", ">=", "<>", "&&", "||", "|", "*", "+", "-", "/", "^", "<", ">", "=", "!", "&",
    ";"]

/-- An operator, in lower case, and its length. -/
def operator? (cs : List Char) : Option (String × Nat) :=
  match wordLength operatorWords cs with
  | some n => some (Text.lower (String.ofList (cs.take n)), n)
  | none => (operatorSigns.find? fun s => s.toList.isPrefixOf cs).map fun s => (s, s.length)

/-- The length of a name without hints: a letter or underscore, which a dollar may precede, more
letters, digits and underscores, and then primes; or one or two question marks. -/
def plainNameLength : List Char → Option Nat
  | '?' :: '?' :: _ => some 2
  | '?' :: _ => some 1
  | cs =>
    let start := match cs with
      | '$' :: _ => 1
      | _ => 0
    match cs.drop start with
    | c :: rest =>
      if isAsciiLetter c || c == '_' then
        let body := rest.takeWhile isNameChar
        let primes := (rest.drop body.length).takeWhile (· == '\x27')
        some (start + 1 + body.length + primes.length)
      else none
    | [] => none

/-- A name with its hints, each of which is letters and a colon before the name, and the length of
all. -/
def name? (cs : List Char) : Option (List String × String × Nat) :=
  let plain := (plainNameLength cs).map fun n => ([], String.ofList (cs.take n), n)
  let letters := cs.takeWhile isAsciiLetter
  match _h : cs.drop letters.length with
  | ':' :: rest =>
    if letters.isEmpty then plain
    else
      match name? rest with
      | some (hints, s, n) =>
        some (String.ofList letters :: hints, s, letters.length + 1 + n)
      | none => plain
  | _ => plain
termination_by cs.length
decreasing_by
  have := congrArg List.length _h
  simp only [List.length_drop, List.length_cons] at this
  omega

/-- A punctuation mark. -/
def mark? : Char → Option Mark
  | '(' => some .openRound
  | ')' => some .closeRound
  | '[' => some .openSquare
  | ']' => some .closeSquare
  | ',' => some .comma
  | _ => none

/-- The lexeme at the start of a text and its length; nothing stands for a comment. -/
def recognise (cs : List Char) : Option (Option Lexeme × Nat) :=
  match commentLength cs with
  | some n => some (none, n)
  | none =>
  match number? cs with
  | some (x, n) => some (some (number x), n)
  | none =>
  match text? cs with
  | some (s, n) => some (some (text s), n)
  | none =>
  match boolean? cs with
  | some (b, n) => some (some (boolean b), n)
  | none =>
  match operator? cs with
  | some (symbol, n) => some (some (operator symbol), n)
  | none =>
  match name? cs with
  | some (hints, s, n) => some (some (name hints s ((cs.drop n).head? == some '(')), n)
  | none =>
  match cs.head?.bind mark? with
  | some m => some (some (mark m), 1)
  | none => none

/-- The lexemes of a text. A text that goes on with no lexeme is in error from there on. -/
def scan : List Char → Except Error (List Lexeme)
  | [] => .ok []
  | c :: rest =>
    if isSkipped c then scan rest
    else
      match recognise (c :: rest) with
      | none => .error (.unreadable (String.ofList (c :: rest)))
      | some (lexeme, n) => do return lexeme.toList ++ (← scan (rest.drop (n - 1)))
termination_by cs => cs.length
decreasing_by
  · simp
  · simp only [List.length_drop, List.length_cons]; omega

end Lexeme

end MathExpr
