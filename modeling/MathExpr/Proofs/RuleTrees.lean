import MathExpr.Library.Rules

/-!
# The built-in rules as trees

The built-in rules are written in source text. Here their patterns, conditions and results are given as
trees, each ruleset with the proof that its texts are read as these trees (`ReadSet.reads`). So the
rulesets are those of the trees (`Library.rulesets_eq`), and what is calculated about the rules, or with
them, is calculated without reading them again.

The trees of values other than numbers, texts and names are not compared (`Value.sameLeaf`): no rule has
any.
-/

namespace MathExpr

/-! ### Comparing trees -/

/-- Whether two values are the same number, text or name, with the same marks or hints. -/
def Value.sameLeaf : Value → Value → Bool
  | number a, number b => a = b
  | text a s l, text b s' l' => a == b && s == s' && l == l'
  | name a h, name b k => a == b && h == k
  | _, _ => false

theorem Value.eq_of_sameLeaf {a b : Value} (h : a.sameLeaf b = true) : a = b := by
  unfold sameLeaf at h
  split at h
  · rw [of_decide_eq_true h]
  · simp only [Bool.and_eq_true, beq_iff_eq] at h
    rw [h.1.1, h.1.2, h.2]
  · simp only [Bool.and_eq_true, beq_iff_eq] at h
    rw [h.1, h.2]
  · cases h

namespace Tree

mutual

/-- Whether two trees of numbers, texts and names are the same. -/
def same : Tree → Tree → Bool
  | leaf a, leaf b => a.sameLeaf b
  | node h xs, node k ys => h = k && sameAll xs ys
  | _, _ => false

/-- Whether the trees of two lists are the same. -/
def sameAll : List Tree → List Tree → Bool
  | [], [] => true
  | x :: xs, y :: ys => same x y && sameAll xs ys
  | _, _ => false

end

mutual

theorem eq_of_same : ∀ {t u : Tree}, t.same u = true → t = u
  | leaf _, leaf _, h => congrArg leaf (Value.eq_of_sameLeaf (by simpa only [same] using h))
  | node _ _, node _ _, h => by
      rw [same, Bool.and_eq_true] at h
      rw [of_decide_eq_true h.1, eq_of_sameAll h.2]
  | leaf _, node _ _, h => by cases h
  | node _ _, leaf _, h => by cases h

theorem eq_of_sameAll : ∀ {ts us : List Tree}, sameAll ts us = true → ts = us
  | [], [], _ => rfl
  | _ :: _, _ :: _, h => by
      rw [sameAll, Bool.and_eq_true] at h
      rw [eq_of_same h.1, eq_of_sameAll h.2]
  | [], _ :: _, h => by cases h
  | _ :: _, [], h => by cases h

end

/-- Whether a source text is read as a tree. -/
def isReadFrom (t : Tree) (s : String) : Bool :=
  match ofSource s with
  | .ok (some u) => u.same t
  | _ => false

theorem ofSource_of_isReadFrom {t : Tree} {s : String} (h : t.isReadFrom s = true) :
    ofSource s = .ok (some t) := by
  unfold isReadFrom at h
  split at h
  · rename_i u hu
    rw [hu, eq_of_same h]
  · cases h

/-- Whether source texts are read as trees, one by one. -/
def areReadFrom : List Tree → List String → Bool
  | [], [] => true
  | t :: ts, s :: rest => t.isReadFrom s && areReadFrom ts rest
  | _, _ => false

theorem mapM_ofSource_of_areReadFrom {ts : List Tree} {sources : List String}
    (h : areReadFrom ts sources = true) : sources.mapM ofSource = .ok (ts.map some) := by
  induction ts generalizing sources with
  | nil =>
      cases sources with
      | nil => rfl
      | cons => cases h
  | cons t ts ih =>
      cases sources with
      | nil => cases h
      | cons s rest =>
          rw [areReadFrom, Bool.and_eq_true] at h
          rw [List.mapM_cons, ofSource_of_isReadFrom h.1, ih h.2]
          rfl

end Tree

/-! ### Rules of trees -/

/-- A rule whose parts are given as trees. -/
structure RuleTrees where
  pattern : Tree
  conditions : List Tree
  result : Tree

namespace RuleTrees

/-- The rule of the trees, if the pattern is one and the names of the result are captured. -/
def rule? (t : RuleTrees) (serial : Nat) (name : String) : Option Rule :=
  match Pattern.ofTree t.pattern with
  | .ok p => (Rule.make serial name p (t.conditions.map some) (some t.result)).toOption
  | .error _ => none

/-- Whether a rule is read as the trees. -/
def isReadFrom (t : RuleTrees) (r : Library.WrittenRule) : Bool :=
  t.pattern.isReadFrom r.pattern && Tree.areReadFrom t.conditions r.conditions &&
    t.result.isReadFrom r.result

theorem ofSource_of_isReadFrom {t : RuleTrees} {r : Library.WrittenRule} (h : t.isReadFrom r = true)
    (serial : Nat) {name : String} (hname : name.isEmpty = false) :
    (Rule.ofSource serial name r.pattern r.conditions (some r.result)).toOption =
      t.rule? serial name := by
  simp only [isReadFrom, Bool.and_eq_true] at h
  obtain ⟨⟨hpattern, hconditions⟩, hresult⟩ := h
  unfold Rule.ofSource Pattern.ofSource rule?
  rw [Tree.ofSource_of_isReadFrom hpattern, Tree.mapM_ofSource_of_areReadFrom hconditions, hname]
  simp only [Tree.ofSource_of_isReadFrom hresult, bind, Except.bind, Bool.false_eq_true, if_false]
  cases Pattern.ofTree t.pattern with
  | error e => rfl
  | ok p =>
      change ((Rule.make serial name p (t.conditions.map some) (some t.result)).mapError
        Failure.error).toOption = (Rule.make serial name p (t.conditions.map some) (some t.result)).toOption
      generalize Rule.make serial name p (t.conditions.map some) (some t.result) = made
      cases made <;> rfl

/-! ### The trees of the built-in rules -/

scoped instance : Add Tree := ⟨.binary "+"⟩
scoped instance : Sub Tree := ⟨.binary "-"⟩
scoped instance : Mul Tree := ⟨.binary "*"⟩
scoped instance : Div Tree := ⟨.binary "/"⟩
scoped instance : Neg Tree := ⟨fun t => .node (.op ⟨"-u", .before⟩) [t]⟩
scoped instance (n : Nat) : OfNat Tree n := ⟨.leaf (.nat n)⟩

def plus (t : Tree) : Tree := .node (.op ⟨"+u", .before⟩) [t]

def negation (t : Tree) : Tree := .node (.op ⟨"not", .before⟩) [t]

def call (f : String) (args : List Tree) : Tree := .node (.call f) args

def var (name : String) : Tree := .leaf (.name name [])

/-- The imaginary unit. -/
def unit : Tree := .leaf (.number (.complex Complex.i))

def pi : Tree := .leaf (.number (.real Real.pi))

/-- A pattern for any tree, captured under a name. -/
def any (name : String) : Tree := .binary ";" (var "?") (var name)

/-- The condition that a name stands for a tree of a kind. -/
def isA (kind name : String) : Tree := .binary "isa" (var name) (.leaf (.plainText kind))

def isNumber (name : String) : Tree := isA "number" name

def isNoNumber (name : String) : Tree := negation (isNumber name)

/-- The condition that two numbers have a common factor. -/
def haveCommonFactor : Tree := .binary ">" (call "gcd_without_pi_or_i" [var "n", var "m"]) 1

/-- Signs and the order of operations. -/
def basic : List RuleTrees := [
  ⟨plus (any "x"), [], var "x"⟩,
  ⟨any "x" + -any "y", [], var "x" - var "y"⟩,
  ⟨any "x" + any "y", [.binary "<" (var "y") 0], var "x" - call "eval" [-var "y"]⟩,
  ⟨any "x" - any "y", [.binary "<" (var "y") 0], var "x" + call "eval" [-var "y"]⟩,
  ⟨any "x" - -any "y", [], var "x" + var "y"⟩,
  ⟨-(-any "x"), [], var "x"⟩,
  ⟨-any "x", [isA "complex" "x", .binary "<" (call "re" [var "x"]) 0], call "eval" [-var "x"]⟩,
  ⟨any "x" + any "y", [isNumber "x", isA "complex" "y", .binary "=" (call "re" [var "y"]) 0],
    call "eval" [var "x" + var "y"]⟩,
  ⟨-any "x" + any "y", [isNumber "x", isA "complex" "y", .binary "=" (call "re" [var "y"]) 0],
    -call "eval" [var "x" - var "y"]⟩,
  ⟨-any "x" / any "y", [], -(var "x" / var "y")⟩,
  ⟨any "x" / (-any "y"), [], -(var "x" / var "y")⟩,
  ⟨-any "x" * any "y", [], -(var "x" * var "y")⟩,
  ⟨any "x" * (-any "y"), [], -(var "x" * var "y")⟩,
  ⟨any "x" + (any "y" + any "z"), [], var "x" + var "y" + var "z"⟩,
  ⟨any "x" - (any "y" + any "z"), [], var "x" - var "y" - var "z"⟩,
  ⟨any "x" + (any "y" - any "z"), [], var "x" + var "y" - var "z"⟩,
  ⟨any "x" - (any "y" - any "z"), [], var "x" - var "y" + var "z"⟩,
  ⟨any "x" * any "y" * any "z", [], var "x" * (var "y" * var "z")⟩,
  ⟨any "n" * unit, [isNumber "n"], call "eval" [var "n" * unit]⟩,
  ⟨unit * any "n", [isNumber "n"], call "eval" [var "n" * unit]⟩]

/-- Leading signs. -/
def noLeadingMinus : List RuleTrees := [
  ⟨-any "x" + any "y", [], var "y" - var "x"⟩,
  ⟨-0, [], 0⟩]

/-- Sums and products of numbers. -/
def collectNumbers : List RuleTrees := [
  ⟨-any "x" - any "y", [isNumber "x", isNumber "y"], -(var "x" + var "y")⟩,
  ⟨any "n" + any "m", [isNumber "n", isNumber "m"], call "eval" [var "n" + var "m"]⟩,
  ⟨any "n" - any "m", [isNumber "n", isNumber "m"], call "eval" [var "n" - var "m"]⟩,
  ⟨any "n" + any "x", [isNumber "n", isNoNumber "x"], var "x" + var "n"⟩,
  ⟨any "x" + any "n" + any "m", [isNumber "n", isNumber "m"], var "x" + call "eval" [var "n" + var "m"]⟩,
  ⟨any "x" - any "n" + any "m", [isNumber "n", isNumber "m"], var "x" + call "eval" [var "m" - var "n"]⟩,
  ⟨any "x" + any "n" - any "m", [isNumber "n", isNumber "m"], var "x" + call "eval" [var "n" - var "m"]⟩,
  ⟨any "x" - any "n" - any "m", [isNumber "n", isNumber "m"], var "x" - call "eval" [var "n" + var "m"]⟩,
  ⟨any "x" + any "n" + any "y", [isNumber "n", isNoNumber "y"], var "x" + var "y" + var "n"⟩,
  ⟨any "x" + any "n" - any "y", [isNumber "n", isNoNumber "y"], var "x" - var "y" + var "n"⟩,
  ⟨any "x" - any "n" + any "y", [isNumber "n", isNoNumber "y"], var "x" + var "y" - var "n"⟩,
  ⟨any "x" - any "n" - any "y", [isNumber "n", isNoNumber "y"], var "x" - var "y" - var "n"⟩,
  ⟨any "n" * any "m", [isNumber "n", isNumber "m"], call "eval" [var "n" * var "m"]⟩,
  ⟨any "x" * any "n", [isNumber "n", isNoNumber "x", .binary "<>" (var "n") unit], var "n" * var "x"⟩,
  ⟨any "m" * (any "n" * any "x"), [isNumber "m", isNumber "n"], call "eval" [var "n" * var "m"] * var "x"⟩]

/-- Common factors of fractions. -/
def simplifyFractions : List RuleTrees :=
  let conditions := [isNumber "n", isNumber "m", haveCommonFactor]
  let reduced (name : String) := call "eval" [var name / call "gcd" [var "n", var "m"]]
  let plain (name : String) := call "eval" [var name / call "gcd_without_pi_or_i" [var "n", var "m"]]
  [⟨any "n" / any "m", conditions, plain "n" / plain "m"⟩,
    ⟨any "n" * any "x" / any "m", conditions, reduced "n" * var "x" / reduced "m"⟩,
    ⟨any "n" / (any "m" * any "x"), conditions, reduced "n" / (reduced "m" * var "x")⟩,
    ⟨any "n" * any "x" / (any "m" * any "y"), conditions,
      reduced "n" * var "x" / (reduced "m" * var "y")⟩]

/-- Numbers before other factors. -/
def constantsFirst : List RuleTrees := [
  ⟨any "x" * any "n", [isNumber "n", isNoNumber "x", .binary "<>" (var "n") unit], var "n" * var "x"⟩,
  ⟨any "x" * (any "n" * any "y"), [isNumber "n", .binary "<>" (var "n") unit, isNoNumber "x"],
    var "n" * (var "x" * var "y")⟩]

/-- Trigonometric functions at multiples of a right angle. -/
def trigonometry : List RuleTrees := [
  ⟨call "sin" [any "n"], [isNumber "n", call "isint" [2 * var "n" / pi]],
    call "eval" [call "sin" [var "n"]]⟩,
  ⟨call "cos" [any "n"], [isNumber "n", call "isint" [2 * var "n" / pi]],
    call "eval" [call "cos" [var "n"]]⟩,
  ⟨call "tan" [any "n"], [isNumber "n", call "isint" [var "n" / pi]], 0⟩,
  ⟨call "cosh" [0], [], 1⟩,
  ⟨call "sinh" [0], [], 0⟩,
  ⟨call "tanh" [0], [], 0⟩]

/-- Whether the rules of a list are read as trees, one by one. -/
def areReadFrom : List RuleTrees → List Library.WrittenRule → Bool
  | [], [] => true
  | t :: ts, r :: rest => t.isReadFrom r && areReadFrom ts rest
  | _, _ => false

/-- The rules that are written for a built-in ruleset. -/
def written (name : String) : List Library.WrittenRule := (Library.writtenRules.lookup name).getD []

end RuleTrees

/-- A built-in ruleset with the trees that its rules are read as. -/
structure ReadSet where
  name : String
  trees : List RuleTrees
  reads : RuleTrees.areReadFrom trees (RuleTrees.written name) = true

namespace ReadSet

/-- The rules of the trees, numbered from a serial number on. -/
def rules (s : ReadSet) (serial : Nat) : List Rule :=
  (s.trees.zip (RuleTrees.written s.name)).zipIdx.filterMap fun r =>
    r.1.1.rule? (serial + r.2) (s.name ++ ": " ++ r.1.2.pattern)

theorem isEmpty_name (setName pattern : String) : (setName ++ ": " ++ pattern).isEmpty = false := by
  rw [String.isEmpty_eq_false_iff]
  intro h
  have hlength := congrArg String.length h
  rw [String.length_append, String.length_append] at hlength
  simp only [show ": ".length = 2 from rfl, show "".length = 0 from rfl] at hlength
  omega

theorem readRules_eq (s : ReadSet) (serial : Nat) :
    Library.readRules serial s.name (RuleTrees.written s.name) = s.rules serial := by
  unfold Library.readRules rules
  have hreads := s.reads
  generalize s.trees = ts at *
  generalize RuleTrees.written s.name = rs at *
  suffices h : ∀ start, (rs.zipIdx start).filterMap (fun r =>
      (Rule.ofSource (serial + r.2) (s.name ++ ": " ++ r.1.pattern) r.1.pattern r.1.conditions
        (some r.1.result)).toOption) =
      ((ts.zip rs).zipIdx start).filterMap fun r =>
        r.1.1.rule? (serial + r.2) (s.name ++ ": " ++ r.1.2.pattern) from h 0
  induction ts generalizing rs with
  | nil =>
      cases rs with
      | nil => exact fun _ => rfl
      | cons => cases hreads
  | cons t ts ih =>
      cases rs with
      | nil => cases hreads
      | cons r rest =>
          intro start
          rw [RuleTrees.areReadFrom, Bool.and_eq_true] at hreads
          rw [List.zip_cons_cons, List.zipIdx_cons, List.zipIdx_cons, List.filterMap_cons,
            List.filterMap_cons, ih rest hreads.2]
          dsimp only
          rw [RuleTrees.ofSource_of_isReadFrom hreads.1 _ (isEmpty_name _ _)]

/-- The rulesets of the trees, with rules numbered from a serial number on. -/
def rulesets (serial : Nat) : List ReadSet → List (String × Ruleset)
  | [] => []
  | s :: rest =>
    (s.name, .make (s.rules serial) .empty) ::
      rulesets (serial + (RuleTrees.written s.name).length) rest

theorem readRulesets_eq (serial : Nat) (sets : List ReadSet) :
    Library.readRulesets serial (sets.map fun s => (s.name, RuleTrees.written s.name)) =
      rulesets serial sets := by
  induction sets generalizing serial with
  | nil => rfl
  | cons s rest ih => rw [List.map_cons, Library.readRulesets, readRules_eq, ih, rulesets]

end ReadSet

namespace RuleTrees

/-- The built-in rulesets with their trees. -/
def readSets : List ReadSet := [
  ⟨"basic", basic, by decide +kernel⟩,
  ⟨"unitFactor", [⟨1 * any "x", [], var "x"⟩, ⟨any "x" * 1, [], var "x"⟩], by decide +kernel⟩,
  ⟨"unitPower", [⟨.binary "^" (any "x") 1, [], var "x"⟩], by decide +kernel⟩,
  ⟨"unitDenominator", [⟨any "x" / 1, [], var "x"⟩], by decide +kernel⟩,
  ⟨"zeroFactor", [⟨any "x" * 0, [], 0⟩, ⟨0 * any "x", [], 0⟩, ⟨0 / any "x", [], 0⟩], by decide +kernel⟩,
  ⟨"zeroTerm",
    [⟨0 + any "x", [], var "x"⟩,
      ⟨any "x" + 0, [], var "x"⟩,
      ⟨any "x" - 0, [], var "x"⟩,
      ⟨0 - any "x", [], -var "x"⟩],
    by decide +kernel⟩,
  ⟨"zeroPower", [⟨.binary "^" (any "x") 0, [], 1⟩], by decide +kernel⟩,
  ⟨"noLeadingMinus", noLeadingMinus, by decide +kernel⟩,
  ⟨"collectNumbers", collectNumbers, by decide +kernel⟩,
  ⟨"simplifyFractions", simplifyFractions, by decide +kernel⟩,
  ⟨"zeroBase", [⟨.binary "^" 0 (any "x"), [], 0⟩], by decide +kernel⟩,
  ⟨"constantsFirst", constantsFirst, by decide +kernel⟩,
  ⟨"sqrtProduct",
    [⟨call "sqrt" [any "x"] * call "sqrt" [any "y"], [], call "sqrt" [var "x" * var "y"]⟩],
    by decide +kernel⟩,
  ⟨"sqrtDivision",
    [⟨call "sqrt" [any "x"] / call "sqrt" [any "y"], [], call "sqrt" [var "x" / var "y"]⟩],
    by decide +kernel⟩,
  ⟨"sqrtSquare",
    [⟨call "sqrt" [.binary "^" (any "x") 2], [], var "x"⟩,
      ⟨.binary "^" (call "sqrt" [any "x"]) 2, [], var "x"⟩,
      ⟨call "sqrt" [any "n"], [isNumber "n", call "isint" [call "sqrt" [var "n"]]], call "eval" [call "sqrt" [var "n"]]⟩],
    by decide +kernel⟩,
  ⟨"trig", trigonometry, by decide +kernel⟩,
  ⟨"otherNumbers",
    [⟨.binary "^" (any "n") (any "m"), [isNumber "n", isNumber "m"], call "eval" [.binary "^" (var "n") (var "m")]⟩],
    by decide +kernel⟩]

end RuleTrees

namespace Library

/-- All rulesets that are written are given as trees. -/
theorem writtenRules_eq :
    writtenRules = RuleTrees.readSets.map fun s => (s.name, RuleTrees.written s.name) := by
  rfl

/-- The built-in rulesets, made from trees. -/
def treeRulesets : Table Ruleset :=
  let named := ReadSet.rulesets 0 RuleTrees.readSets
  ⟨named ++ [("all", .make (named.flatMap fun s => s.2.rules) .empty)]⟩

/-- The built-in rulesets are those of the trees. -/
theorem rulesets_eq : rulesets = treeRulesets := by
  unfold rulesets treeRulesets
  rw [writtenRules_eq, ReadSet.readRulesets_eq]

end Library

end MathExpr
