import MathExpr.Display.Source
import MathExpr.Text.Letter
/-!
# Trees as TeX

The TeX of a tree, without delimiters around it. Brackets are those of the source text, in a size that
fits; each known function has a template, and any other is written by its name.
-/

namespace MathExpr.Tex

/-! ## Pieces -/

/-- A text in braces. -/
def braced (s : String) : String := "\x7b" ++ s ++ "\x7d"

/-- A command with one argument in braces. -/
def command (name s : String) : String := "\\" ++ name ++ braced s

/-- A text in braces, set off by blanks. -/
def spaced (s : String) : String := braced (" " ++ s ++ " ")

/-- A text in brackets that grow with it. -/
def brackets (s : String) : String := "\\left ( " ++ s ++ " \\right )"

/-- Texts in square brackets. -/
def square (texts : List String) : String := "\\left[ " ++ ", ".intercalate texts ++ " \\right]"

/-- Texts in the braces of a set. -/
def setBraces (texts : List String) : String :=
  "\\left\\\x7b " ++ ", ".intercalate texts ++ " \\right\\\x7d"

/-- The rows of a matrix in brackets. -/
def pmatrix (rows : List String) : String :=
  "\\begin" ++ braced "pmatrix" ++ " " ++ " \\\\ ".intercalate rows ++ " \\end" ++ braced "pmatrix"

/-- A vector, in a column or in a row. -/
def vector (settings : Settings) (texts : List String) : String :=
  pmatrix (if settings.rowVector then [" & ".intercalate texts] else texts)

/-- A matrix, by the texts of its entries. -/
def matrix (rows : List (List String)) : String :=
  pmatrix (rows.map " & ".intercalate)

/-! ## Numbers -/

/-- The text with each whole exponent in braces. -/
def braceExponents : List Char → List Char
  | '^' :: rest =>
    let digits := rest.takeWhile Char.isDigit
    if digits.isEmpty then '^' :: braceExponents rest
    else '^' :: '\x7b' :: digits ++ '\x7d' :: braceExponents (rest.drop digits.length)
  | c :: rest => c :: braceExponents rest
  | [] => []
termination_by cs => cs.length
decreasing_by all_goals simp only [List.length_drop, List.length_cons]; omega

/-- The text with the name of pi made a command. -/
def piCommand : List Char → List Char
  | 'p' :: 'i' :: rest => '\\' :: 'p' :: 'i' :: piCommand rest
  | c :: rest => c :: piCommand rest
  | [] => []

/-- A written number as TeX. -/
def ofWritten (text : String) : String :=
  String.ofList (piCommand (braceExponents text.toList))

/-- A real number. -/
def real (settings : Settings) (x : Float) : Except Fault String :=
  if x.isNaN then .ok (command "text" "NaN")
  else if x.isInf then .ok (if x > 0.0 then "\\infty" else "-\\infty")
  else do
    if settings.fractions && !Real.isInteger x then
      let (n, d) ← Number.rationalApproximation x Number.defaultAccuracy
      if d ≠ 1 then
        return (if n < 0 then "-" else "") ++
          "\\frac" ++ braced (toString n.natAbs) ++ braced (toString d)
    return ofWritten (← Number.writtenReal settings x)

/-- A number. A complex number is written as a sum, without a part that is zero. -/
def number (settings : Settings) : Number → Except Fault String
  | .real x => real settings x
  | .complex z => do
    if z.im == 0.0 then return (← real settings z.re)
    let im ←
      if z.im == 1.0 then pure "i"
      else if z.im == -1.0 then pure "-i"
      else do pure ((← real settings z.im) ++ " i")
    if z.re == 0.0 then return im
    let re ← real settings z.re
    match im.toList with
    | '-' :: rest => return re ++ " - " ++ String.ofList rest
    | _ => return re ++ " + " ++ im

/-! ## Names -/

/-- The Greek letters that have a command. -/
def greek : List String := [
  "alpha", "beta", "gamma", "delta", "epsilon", "zeta", "eta", "theta", "iota", "kappa", "lambda",
  "mu", "nu", "xi", "omicron", "pi", "rho", "sigma", "tau", "upsilon", "phi", "chi", "psi", "omega",
  "Gamma", "Delta", "Theta", "Lambda", "Xi", "Pi", "Sigma", "Upsilon", "Phi", "Psi", "Omega"]

/-- A name displayed as a hint says. Hints that are not known change nothing. -/
def hinted (hint s : String) : String :=
  match hint with
  | "verb" => "\\verb|" ++ s ++ "|"
  | "op" => command "operatorname" s
  | "v" | "vector" | "b" | "bold" | "m" | "matrix" => command "boldsymbol" s
  | "unit" | "hat" => command "hat" s
  | "dot" => command "dot" s
  | "diff" => braced (command "mathrm" "d" ++ s)
  | "degrees" => s ++ "^" ++ braced "\\circ"
  | _ => s

/-- The part of a name before its index: a Greek letter, a word or a symbol. -/
def stem (cs : List Char) : String :=
  let s := String.ofList cs
  if greek.contains s then "\\" ++ s
  else if 1 < cs.length && Text.isWord cs then command "mathrm" s
  else s

/-- A name of letters followed by digits, which are its index. -/
def indexed? (cs : List Char) : Option (List Char × List Char) :=
  let letters := cs.takeWhile Char.isAlpha
  let digits := cs.drop letters.length
  if !letters.isEmpty && !digits.isEmpty && digits.all Char.isDigit then some (letters, digits)
  else none

/-- The parts of a name between its underscores, each the index of the one before. -/
def ofParts : List (List Char) → String
  | [] => ""
  | [part] | [part, []] =>
    match indexed? part with
    | some (letters, digits) => stem letters ++ "_" ++ braced (stem digits)
    | none => stem part
  | part :: rest => stem part ++ "_" ++ braced (ofParts rest)

/-- The parts of a text between underscores. -/
def splitIndexes : List Char → List (List Char)
  | [] => [[]]
  | c :: rest =>
    match splitIndexes rest with
    | part :: parts => if c = '_' then [] :: part :: parts else (c :: part) :: parts
    | [] => [[c]]

/-- The part of a name at a depth of indexes, with as many backslashes before each dollar sign as there
are names that it is part of. -/
def escapeDollars (depth : Nat) (cs : List Char) : List Char :=
  cs.flatMap fun c => if c = '$' then List.replicate depth '\\' ++ ['$'] else [c]

/-- A name without its primes. -/
def unprimed (cs : List Char) : List Char :=
  (cs.reverse.dropWhile (· == '\x27')).reverse

/-- A name with its hints; primes stand behind all. -/
def name (s : String) (hints : List String) : String :=
  let cs := s.toList
  let body := unprimed cs
  let parts := (splitIndexes body).zipIdx 1
  let text := ofParts (parts.map fun (part, depth) => escapeDollars depth part)
  hints.foldr hinted text ++ String.ofList (List.replicate (cs.length - body.length) '\x27')

/-! ## Values -/

mutual

/-- A value. -/
def value (settings : Settings) : Value → Except Fault String
  | .number n => number settings n
  | .text s _ latex => .ok (if latex then s else command "textrm" (Text.unescapeBraces s))
  | .boolean b => .ok (command "textrm" (if b then "true" else "false"))
  | .name s hints => .ok (name s hints)
  | .range r => do
    let start ← real settings r.start
    let stop ← real settings r.stop
    let text := start ++ " \\ldots " ++ stop
    if r.step == 1.0 then return text
    return text ++ " \\, " ++ command "text" "step" ++ " \\, " ++ (← real settings r.step)
  | .list items => return square (← values settings items)
  | .set items => return setBraces (← values settings items)
  | .vector entries => return vector settings (← entries.mapM (real settings))
  | .matrix m => return matrix (← m.rows.mapM (List.mapM (real settings)))

/-- The values of a list. -/
def values (settings : Settings) : List Value → Except Fault (List String)
  | [] => .ok []
  | v :: vs => return (← value settings v) :: (← values settings vs)

end

/-! ## Operators and functions -/

/-- What stands between the operands of an operator. -/
def operatorText (symbol : String) : String :=
  match symbol with
  | "+" => " + "
  | "-" => " - "
  | "=" => " = "
  | "<>" => " \\neq "
  | "<" => " \\lt "
  | ">" => " \\gt "
  | "<=" => " \\leq "
  | ">=" => " \\geq "
  | "and" => " \\wedge "
  | "or" => " \\vee "
  | "xor" => " \\, " ++ command "textrm" "XOR" ++ " \\, "
  | "implies" => " \\to "
  | "in" => " \\in "
  | "except" => " " ++ command "operatorname" "except" ++ " "
  | "isa" => " " ++ command "text" " is a " ++ " "
  | ".." => " \\ldots "
  | "#" => " \\, " ++ command "text" "step" ++ " \\, "
  | "|" => " | "
  | ";" => ";"
  | _ => " " ++ symbol ++ " "

/-- What stands before the operand of an operator. -/
def signText (symbol : String) : String :=
  match symbol with
  | "+u" => "+"
  | "-u" => "-"
  | "not" => "\\neg "
  | _ => symbol ++ " "

/-- The functions that have a command of their own name. -/
def namedFunctions : List String := [
  "sin", "cos", "tan", "sec", "cot", "sinh", "cosh", "tanh", "coth", "arcsin", "arccos", "arctan",
  "arg", "det", "gcd", "max", "min", "exp"]

/-- Whether an argument is to be bracketed before a factorial sign. -/
def isCompound (arg : Tree) (text : String) : Bool :=
  match arg with
  | .node (.op _) _ | .node (.call _) _ => true
  | .leaf (.number _) => text.toList.head? == some '-'
  | _ => false

/-- The TeX of a tree, and of its elements if it is a list literal. -/
structure Rendered where
  text : String
  elements : Option (List String)

/-- The template of a function of one argument. -/
def unaryCall? (key : String) (arg : Tree) (text : String) : Option String :=
  match key with
  | "sqrt" => some ("\\sqrt" ++ spaced text)
  | "abs" | "len" | "length" => some ("\\left | " ++ text ++ " \\right |")
  | "exp" => some ("e^" ++ spaced text)
  | "ln" => some ("\\ln " ++ brackets text)
  | "log" => some ("\\log_" ++ braced "10" ++ " " ++ brackets text)
  | "fact" => some ((if isCompound arg text then brackets text else text) ++ "!")
  | "ceil" => some ("\\left \\lceil " ++ text ++ " \\right \\rceil")
  | "floor" => some ("\\left \\lfloor " ++ text ++ " \\right \\rfloor")
  | "conj" => some ("\\overline" ++ spaced text)
  | "re" => some ("\\Re " ++ brackets text)
  | "im" => some ("\\Im " ++ brackets text)
  | "transpose" => some (spaced text ++ "^" ++ braced (command "mathrm" "T"))
  | _ => none

/-- The template of a function of two arguments. -/
def binaryCall? (key a b : String) : Option String :=
  match key with
  | "root" => some ("\\sqrt[" ++ b ++ "]" ++ spaced a)
  | "comb" => some ("\\binom" ++ spaced a ++ spaced b)
  | "listval" => some (spaced a ++ "_" ++ spaced b)
  | "dot" => some (a ++ " \\cdot " ++ b)
  | "cross" => some (a ++ " \\times " ++ b)
  | _ => none

/-- The template of a function of any number of arguments. A matrix is laid out if its rows are all
list literals. -/
def anyCall (settings : Settings) (name key : String) (args : List Rendered) : String :=
  let texts := args.map Rendered.text
  let arguments := brackets (", ".intercalate texts)
  match key, args.mapM Rendered.elements with
  | "matrix", some rows => matrix rows
  | "vector", _ => vector settings texts
  | "set", _ => setBraces texts
  | "cosec", _ => "\\csc " ++ arguments
  | _, _ =>
    if namedFunctions.contains key then "\\" ++ key ++ " " ++ arguments
    else
      let escaped := name.toList.flatMap fun c => if c = '_' then ['\\', '_'] else [c]
      command "operatorname" (String.ofList escaped) ++ " " ++ arguments

/-- A function. -/
def call (settings : Settings) (name : String) (args : List Tree) (rendered : List Rendered) :
    String :=
  let key := Text.lower name
  let template := match args, rendered with
    | [arg], [r] => unaryCall? key arg r.text
    | [_, _], [r, s] => binaryCall? key r.text s.text
    | _, _ => none
  template.getD (anyCall settings name key rendered)

/-- The operands of an operator, bracketed as they are in source text. -/
def operands (settings : Settings) (symbol : String) (args : List Tree) (texts : List String) :
    Except Fault (List String) :=
  ((args.zip texts).zipIdx).mapM fun ((arg, text), i) => do
    let binding ← Binding.ofTree settings arg
    return if Binding.needsBrackets symbol args.length i binding then brackets text else text

/-- A power. The base is bracketed as in source text, and if it is a function with a command. -/
def power (settings : Settings) (args : List Tree) (texts : List String) : Except Fault String :=
  match args, texts with
  | base :: _, a :: more => do
    let binding ← Binding.ofTree settings base
    let isNamed := match base with
      | .node (.call name) _ => namedFunctions.contains name
      | _ => false
    let a := if Binding.needsBrackets "^" args.length 0 binding || isNamed then brackets a else a
    match more with
    | b :: _ => return spaced a ++ "^" ++ spaced b
    | [] => .error .outOfBounds
  | _, _ => .error .outOfBounds

/-- A product. The sign is left out where it is in source text, but never between numbers. -/
def product (settings : Settings) (a b : Tree) (left right : String) : Except Fault String := do
  match a, b with
  | .leaf (.number _), .leaf (.number _) => return left ++ " \\times " ++ right
  | _, _ =>
    let texts ← Tree.operands settings "*" [a, b] [← a.source settings, ← b.source settings]
    match texts with
    | [x, y] => return left ++ (if Tree.omitsTimes a b x y then " " else " \\times ") ++ right
    | _ => .error .outsideDomain

/-- An operator. A quotient is a fraction; a product has two factors. -/
def operator (settings : Settings) (symbol : String) (args : List Tree) (texts : List String) :
    Except Fault String :=
  if symbol == "/" then
    match texts with
    | a :: b :: _ => .ok ("\\frac" ++ spaced a ++ spaced b)
    | _ => .error .outOfBounds
  else if symbol == "^" then power settings args texts
  else do
    match ← operands settings symbol args texts, args with
    | [text], _ => return if symbol == "fact" then text ++ "!" else signText symbol ++ text
    | [left, right], [a, b] =>
      if symbol == "*" then product settings a b left right
      else return left ++ operatorText symbol ++ right
    | texts, _ =>
      if symbol == "*" then .error .outsideDomain
      else return (operatorText symbol).intercalate texts

mutual

/-- The TeX of a tree, and of the elements of a list literal. -/
def render (settings : Settings) : Tree → Except Fault Rendered
  | .leaf v => return ⟨← value settings v, none⟩
  | .node h args => do
    let rendered ← renderAll settings args
    let texts := rendered.map Rendered.text
    match h with
    | .list => return ⟨square texts, some texts⟩
    | .call name => return ⟨call settings name args rendered, none⟩
    | .op o => return ⟨← operator settings o.symbol args texts, none⟩

/-- The TeX of the trees of a list. -/
def renderAll (settings : Settings) : List Tree → Except Fault (List Rendered)
  | [] => .ok []
  | t :: ts => return (← render settings t) :: (← renderAll settings ts)

end

/-- The TeX of a tree. -/
def ofTree (settings : Settings) (t : Tree) : Except Fault String :=
  return (← render settings t).text

/-- The TeX of a tree that may be empty. -/
def ofTree? (settings : Settings) : Option Tree → Except Fault String
  | none => .ok ""
  | some t => ofTree settings t

end MathExpr.Tex
