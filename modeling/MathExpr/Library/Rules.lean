import MathExpr.Rule.Basic
/-!
# Built-in rulesets

The built-in rules, in the rulesets by which they are asked for. A rule is called by its ruleset and its
pattern.
-/

namespace MathExpr.Library

/-- A rule as it is written: its pattern, its conditions, and its result. -/
structure WrittenRule where
  pattern : String
  conditions : List String := []
  result : String

/-- The condition that a name stands for a tree of a kind. -/
def isA (kind name : String) : String := name ++ " isa \x22" ++ kind ++ "\x22"

/-- The condition that a name stands for a number. -/
def isNumber (name : String) : String := isA "number" name

/-- The condition that a name does not stand for a number. -/
def isNoNumber (name : String) : String := "not (" ++ isNumber name ++ ")"

/-- The condition that two numbers have a common factor. -/
def haveCommonFactor : String := "gcd_without_pi_or_i(n,m)>1"

/-- Signs and the order of operations. -/
def basic : List WrittenRule := [
  ⟨"+(?;x)", [], "x"⟩,
  ⟨"?;x+(-?;y)", [], "x-y"⟩,
  ⟨"?;x+?;y", ["y<0"], "x-eval(-y)"⟩,
  ⟨"?;x-?;y", ["y<0"], "x+eval(-y)"⟩,
  ⟨"?;x-(-?;y)", [], "x+y"⟩,
  ⟨"-(-?;x)", [], "x"⟩,
  ⟨"-?;x", [isA "complex" "x", "re(x)<0"], "eval(-x)"⟩,
  ⟨"?;x+?;y", [isNumber "x", isA "complex" "y", "re(y)=0"], "eval(x+y)"⟩,
  ⟨"-?;x+?;y", [isNumber "x", isA "complex" "y", "re(y)=0"], "-eval(x-y)"⟩,
  ⟨"(-?;x)/?;y", [], "-(x/y)"⟩,
  ⟨"?;x/(-?;y)", [], "-(x/y)"⟩,
  ⟨"(-?;x)*?;y", [], "-(x*y)"⟩,
  ⟨"?;x*(-?;y)", [], "-(x*y)"⟩,
  ⟨"?;x+(?;y+?;z)", [], "(x+y)+z"⟩,
  ⟨"?;x-(?;y+?;z)", [], "(x-y)-z"⟩,
  ⟨"?;x+(?;y-?;z)", [], "(x+y)-z"⟩,
  ⟨"?;x-(?;y-?;z)", [], "(x-y)+z"⟩,
  ⟨"(?;x*?;y)*?;z", [], "x*(y*z)"⟩,
  ⟨"?;n*i", [isNumber "n"], "eval(n*i)"⟩,
  ⟨"i*?;n", [isNumber "n"], "eval(n*i)"⟩]

/-- Leading signs. -/
def noLeadingMinus : List WrittenRule := [
  ⟨"-?;x+?;y", [], "y-x"⟩,
  ⟨"-0", [], "0"⟩]

/-- Sums and products of numbers. -/
def collectNumbers : List WrittenRule := [
  ⟨"-?;x-?;y", [isNumber "x", isNumber "y"], "-(x+y)"⟩,
  ⟨"?;n+?;m", [isNumber "n", isNumber "m"], "eval(n+m)"⟩,
  ⟨"?;n-?;m", [isNumber "n", isNumber "m"], "eval(n-m)"⟩,
  ⟨"?;n+?;x", [isNumber "n", isNoNumber "x"], "x+n"⟩,
  ⟨"(?;x+?;n)+?;m", [isNumber "n", isNumber "m"], "x+eval(n+m)"⟩,
  ⟨"(?;x-?;n)+?;m", [isNumber "n", isNumber "m"], "x+eval(m-n)"⟩,
  ⟨"(?;x+?;n)-?;m", [isNumber "n", isNumber "m"], "x+eval(n-m)"⟩,
  ⟨"(?;x-?;n)-?;m", [isNumber "n", isNumber "m"], "x-eval(n+m)"⟩,
  ⟨"(?;x+?;n)+?;y", [isNumber "n", isNoNumber "y"], "(x+y)+n"⟩,
  ⟨"(?;x+?;n)-?;y", [isNumber "n", isNoNumber "y"], "(x-y)+n"⟩,
  ⟨"(?;x-?;n)+?;y", [isNumber "n", isNoNumber "y"], "(x+y)-n"⟩,
  ⟨"(?;x-?;n)-?;y", [isNumber "n", isNoNumber "y"], "(x-y)-n"⟩,
  ⟨"?;n*?;m", [isNumber "n", isNumber "m"], "eval(n*m)"⟩,
  ⟨"?;x*?;n", [isNumber "n", isNoNumber "x", "n<>i"], "n*x"⟩,
  ⟨"?;m*(?;n*?;x)", [isNumber "m", isNumber "n"], "eval(n*m)*x"⟩]

/-- Common factors of fractions. -/
def simplifyFractions : List WrittenRule :=
  let conditions := [isNumber "n", isNumber "m", haveCommonFactor]
  [⟨"?;n/?;m", conditions,
      "eval(n/gcd_without_pi_or_i(n,m))/eval(m/gcd_without_pi_or_i(n,m))"⟩,
    ⟨"(?;n*?;x)/?;m", conditions, "(eval(n/gcd(n,m))*x)/eval(m/gcd(n,m))"⟩,
    ⟨"?;n/(?;m*?;x)", conditions, "eval(n/gcd(n,m))/(eval(m/gcd(n,m))*x)"⟩,
    ⟨"(?;n*?;x)/(?;m*?;y)", conditions, "(eval(n/gcd(n,m))*x)/(eval(m/gcd(n,m))*y)"⟩]

/-- Numbers before other factors. -/
def constantsFirst : List WrittenRule := [
  ⟨"?;x*?;n", [isNumber "n", isNoNumber "x", "n<>i"], "n*x"⟩,
  ⟨"?;x*(?;n*?;y)", [isNumber "n", "n<>i", isNoNumber "x"], "n*(x*y)"⟩]

/-- Trigonometric functions at multiples of a right angle. -/
def trigonometry : List WrittenRule := [
  ⟨"sin(?;n)", [isNumber "n", "isint(2*n/pi)"], "eval(sin(n))"⟩,
  ⟨"cos(?;n)", [isNumber "n", "isint(2*n/pi)"], "eval(cos(n))"⟩,
  ⟨"tan(?;n)", [isNumber "n", "isint(n/pi)"], "0"⟩,
  ⟨"cosh(0)", [], "1"⟩,
  ⟨"sinh(0)", [], "0"⟩,
  ⟨"tanh(0)", [], "0"⟩]

/-- The built-in rules by ruleset. -/
def writtenRules : List (String × List WrittenRule) := [
  ("basic", basic),
  ("unitFactor", [⟨"1*?;x", [], "x"⟩, ⟨"?;x*1", [], "x"⟩]),
  ("unitPower", [⟨"?;x^1", [], "x"⟩]),
  ("unitDenominator", [⟨"?;x/1", [], "x"⟩]),
  ("zeroFactor", [⟨"?;x*0", [], "0"⟩, ⟨"0*?;x", [], "0"⟩, ⟨"0/?;x", [], "0"⟩]),
  ("zeroTerm",
    [⟨"0+?;x", [], "x"⟩, ⟨"?;x+0", [], "x"⟩, ⟨"?;x-0", [], "x"⟩, ⟨"0-?;x", [], "-x"⟩]),
  ("zeroPower", [⟨"?;x^0", [], "1"⟩]),
  ("noLeadingMinus", noLeadingMinus),
  ("collectNumbers", collectNumbers),
  ("simplifyFractions", simplifyFractions),
  ("zeroBase", [⟨"0^?;x", [], "0"⟩]),
  ("constantsFirst", constantsFirst),
  ("sqrtProduct", [⟨"sqrt(?;x)*sqrt(?;y)", [], "sqrt(x*y)"⟩]),
  ("sqrtDivision", [⟨"sqrt(?;x)/sqrt(?;y)", [], "sqrt(x/y)"⟩]),
  ("sqrtSquare",
    [⟨"sqrt(?;x^2)", [], "x"⟩, ⟨"sqrt(?;x)^2", [], "x"⟩,
      ⟨"sqrt(?;n)", [isNumber "n", "isint(sqrt(n))"], "eval(sqrt(n))"⟩]),
  ("trig", trigonometry),
  ("otherNumbers", [⟨"?;n^?;m", [isNumber "n", isNumber "m"], "eval(n^m)"⟩])]

/-- The rules that are written, numbered from a serial number on. All that are written here can be
read. -/
def readRules (serial : Nat) (setName : String) (rules : List WrittenRule) : List Rule :=
  rules.zipIdx.filterMap fun (r, i) =>
    (Rule.ofSource (serial + i) (setName ++ ": " ++ r.pattern) r.pattern r.conditions
      (some r.result)).toOption

/-- The rulesets that are written, with rules numbered from a serial number on. -/
def readRulesets (serial : Nat) : List (String × List WrittenRule) → List (String × Ruleset)
  | [] => []
  | (setName, rules) :: rest =>
    (setName, .make (readRules serial setName rules) .empty) ::
      readRulesets (serial + rules.length) rest

/-- The built-in rulesets. The last of them holds all rules. -/
def rulesets : Table Ruleset :=
  let named := readRulesets 0 writtenRules
  ⟨named ++ [("all", .make (named.flatMap fun s => s.2.rules) .empty)]⟩

/-- The number of built-in rules. -/
def ruleCount : Nat := (writtenRules.flatMap (·.2)).length

end MathExpr.Library
