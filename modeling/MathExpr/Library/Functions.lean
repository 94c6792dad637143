import MathExpr.Signature
/-!
# Built-in functions

The names of the built-in functions and operators, with the arguments that each takes. Of several that
take the same arguments the first counts.
-/

namespace MathExpr.Library

/-- What is built in under a name: the kinds of the arguments, and the operation. -/
abbrev Listed := String × List String × Primitive

/-- Arithmetic. -/
def arithmetic : List Listed := [
  ("+u", ["number"], .same),
  ("+u", ["vector"], .same),
  ("+u", ["matrix"], .same),
  ("-u", ["number"], .negate),
  ("-u", ["vector"], .negate),
  ("-u", ["matrix"], .negate),
  ("+", ["number", "number"], .add),
  ("+", ["list", "list"], .add),
  ("+", ["list", "?"], .append),
  ("+", ["string", "?"], .join),
  ("+", ["?", "string"], .join),
  ("+", ["vector", "vector"], .add),
  ("+", ["matrix", "matrix"], .add),
  ("-", ["number", "number"], .subtract),
  ("-", ["vector", "vector"], .subtract),
  ("-", ["matrix", "matrix"], .subtract),
  ("-", ["set", "set"], .subtract),
  ("*", ["number", "number"], .multiply),
  ("*", ["number", "vector"], .multiply),
  ("*", ["vector", "number"], .multiply),
  ("*", ["number", "matrix"], .multiply),
  ("*", ["matrix", "number"], .multiply),
  ("*", ["matrix", "matrix"], .multiply),
  ("*", ["matrix", "vector"], .multiply),
  ("*", ["vector", "matrix"], .multiply),
  ("/", ["number", "number"], .divide),
  ("/", ["vector", "number"], .divide),
  ("/", ["matrix", "number"], .divide),
  ("^", ["number", "number"], .power),
  ("^", ["matrix", "number"], .power)]

/-- Comparison and logic. -/
def logic : List Listed := [
  ("<", ["number", "number"], .less),
  (">", ["number", "number"], .greater),
  ("<=", ["number", "number"], .lessOrEqual),
  (">=", ["number", "number"], .greaterOrEqual),
  ("=", ["?", "?"], .equal),
  ("<>", ["?", "?"], .unequal),
  ("not", ["boolean"], .not),
  ("and", ["boolean", "boolean"], .both),
  ("or", ["boolean", "boolean"], .either),
  ("xor", ["boolean", "boolean"], .exclusive),
  ("implies", ["boolean", "boolean"], .implies),
  ("and", ["set", "set"], .intersection),
  ("or", ["set", "set"], .union),
  ("|", ["number", "number"], .divides)]

/-- Ranges and collections. -/
def collections : List Listed := [
  ("..", ["number", "number"], .range),
  ("#", ["range", "number"], .rangeStep),
  ("in", ["number", "range"], .isInRange),
  ("in", ["?", "list"], .isInItems),
  ("in", ["?", "set"], .isInItems),
  ("except", ["list", "list"], .exclude),
  ("except", ["list", "?"], .exclude),
  ("except", ["range", "range"], .exclude),
  ("except", ["range", "list"], .exclude),
  ("except", ["range", "number"], .exclude),
  ("distinct", ["list"], .distinct),
  ("list", ["range"], .toList),
  ("list", ["set"], .toList),
  ("list", ["vector"], .toList),
  ("list", ["matrix"], .toList),
  ("listval", ["?", "number"], .element),
  ("listval", ["?", "range"], .slice)]

/-- Vectors and matrices. -/
def vectors : List Listed := [
  ("vector", ["*number"], .vector),
  ("vector", ["list"], .vectorOfList),
  ("matrix", ["*list"], .matrix),
  ("matrix", ["*vector"], .matrixOfVectors),
  ("rowvector", ["*number"], .rowVector),
  ("rowvector", ["list"], .rowVectorOfList),
  ("dot", ["vector", "vector"], .dot),
  ("cross", ["vector", "vector"], .cross),
  ("dot", ["vector", "matrix"], .dot),
  ("cross", ["vector", "matrix"], .cross),
  ("dot", ["matrix", "vector"], .dot),
  ("cross", ["matrix", "vector"], .cross),
  ("dot", ["matrix", "matrix"], .dot),
  ("cross", ["matrix", "matrix"], .cross),
  ("det", ["matrix"], .determinant),
  ("transpose", ["matrix"], .transpose),
  ("transpose", ["vector"], .transpose),
  ("id", ["number"], .identity)]

/-- Sets. -/
def sets : List Listed := [
  ("set", ["list"], .setOfItems),
  ("set", ["range"], .setOfItems),
  ("set", ["*?"], .set),
  ("union", ["set", "set"], .union),
  ("intersection", ["set", "set"], .intersection)]

/-- The functions of a single number. -/
def scalars : List (String × Scalar) := [
  ("arg", .arg), ("re", .re), ("im", .im), ("conj", .conj), ("sqrt", .sqrt), ("ln", .ln),
  ("log", .log), ("exp", .exp), ("fact", .factorial), ("gamma", .gamma), ("sin", .sin),
  ("cos", .cos), ("tan", .tan), ("cosec", .cosec), ("sec", .sec), ("cot", .cot),
  ("arcsin", .arcsin), ("arccos", .arccos), ("arctan", .arctan), ("sinh", .sinh), ("cosh", .cosh),
  ("tanh", .tanh), ("cosech", .cosech), ("sech", .sech), ("coth", .coth), ("arcsinh", .arcsinh),
  ("arccosh", .arccosh), ("arctanh", .arctanh), ("ceil", .ceil), ("floor", .floor),
  ("trunc", .trunc), ("fract", .fract), ("degrees", .degrees), ("radians", .radians),
  ("round", .round), ("sign", .sign)]

/-- Numbers. -/
def numbers : List Listed :=
  [("abs", ["number"], .size),
    ("abs", ["vector"], .size),
    ("abs", ["list"], .size),
    ("abs", ["set"], .size),
    ("abs", ["string"], .size),
    ("abs", ["range"], .size)] ++
  (scalars.map fun f => (f.1, ["number"], .scalar f.2)) ++
  [("log", ["number", "number"], .logBase),
    ("isint", ["number"], .isInteger),
    ("isnan", ["number"], .isNaN),
    ("mod", ["number", "number"], .mod),
    ("root", ["number", "number"], .root),
    ("max", ["number", "number"], .max),
    ("min", ["number", "number"], .min),
    ("max", ["list"], .maxOf),
    ("min", ["list"], .minOf),
    ("perm", ["number", "number"], .permutations),
    ("comb", ["number", "number"], .combinations),
    ("gcd", ["number", "number"], .commonFactor),
    ("gcd_without_pi_or_i", ["number", "number"], .commonFactorBarPi),
    ("lcm", ["*number"], .commonMultiple),
    ("lcm", ["list"], .commonMultipleOf),
    ("award", ["number", "boolean"], .award),
    ("factorise", ["number"], .factorise)]

/-- Rounding and formatting. -/
def rounding : List Listed := [
  ("precround", ["number", "number"], .roundPlaces),
  ("precround", ["vector", "number"], .roundPlaces),
  ("precround", ["matrix", "number"], .roundPlaces),
  ("siground", ["number", "number"], .roundFigures),
  ("siground", ["vector", "number"], .roundFigures),
  ("siground", ["matrix", "number"], .roundFigures),
  ("dpformat", ["number", "number"], .writePlaces),
  ("sigformat", ["number", "number"], .writeFigures)]

/-- Lists and random choices. -/
def lists : List Listed := [
  ("sum", ["list"], .sum),
  ("sum", ["vector"], .sum),
  ("prod", ["list"], .product),
  ("prod", ["vector"], .product),
  ("sort", ["list"], .sort),
  ("deal", ["number"], .deal),
  ("shuffle", ["list"], .shuffle),
  ("shuffle", ["range"], .shuffle),
  ("random", ["range"], .randomInRange),
  ("random", ["list"], .randomOfList),
  ("random", ["*?"], .random)]

/-- Texts. -/
def texts : List Listed := [
  ("string", ["?"], .text),
  ("latex", ["?"], .latex),
  ("capitalise", ["string"], .capitalise),
  ("upper", ["string"], .upper),
  ("lower", ["string"], .lower),
  ("pluralise", ["number", "string", "string"], .pluralise)]

/-- All that is built in under names, except for the constructs. -/
def listed : List Listed :=
  arithmetic ++ logic ++ collections ++ vectors ++ sets ++ numbers ++ rounding ++ lists ++ texts

/-- The built-in signatures, numbered in order. A construct takes any arguments. -/
def signatures : List Signature :=
  let operations := listed.map fun l => (l.1, l.2.1, Body.builtin l.2.2)
  let constructs := Construct.all.map fun c => (c.name, ["*?"], Body.construct c)
  (operations ++ constructs).zipIdx.map fun (l, serial) =>
    ⟨serial, l.1, l.2.1.map ArgumentType.ofText, l.2.2⟩

end MathExpr.Library
