/-!
# Failures

What can go wrong, by cause.

* An `Error` is a diagnosis for whoever wrote the expression: it has a stable kind, arguments and a
  message, and rules, marking and the command line know how to live with one.
* A `Fault` is a breakdown of a single operation (a number outside the domain of a function, an index
  outside a sequence). Nothing catches a fault except marking, and only the faults of arithmetic.

`Error.message` fills the template of the error's kind with its arguments, so the wording of all
diagnoses stands in one table, `Error.templates`.
-/

namespace MathExpr

/-- A breakdown of one operation. -/
inductive Fault where
  /-- A closing bracket met an opening bracket of another shape. -/
  | mismatchedBracket
  /-- A part of a tree or value that has to be there is missing. -/
  | missingPart
  /-- An index outside its sequence. -/
  | outOfBounds
  /-- A setting that has to be given is missing or has no known meaning. -/
  | missingSetting
  /-- A result too large for a number, or an infinite number where an integer is needed. -/
  | overflow
  /-- An argument outside the domain of a function. -/
  | outsideDomain
  /-- A value of a shape that the operation has no use for. -/
  | unsuitable
  /-- An attempt to change a frozen scope. -/
  | frozenScope
  /-- A quotient by zero where the operation does not define one. -/
  | divisionByZero
  /-- A decimal exponent outside the range of decimal arithmetic. -/
  | decimalRange
  /-- More nesting than evaluation allows. -/
  | tooDeep
  deriving DecidableEq, Repr

/-- The part of the work in which an error arises. -/
inductive Category where
  | lexical | parsing | binding | dispatching | numeric | resource | general
  deriving DecidableEq, Repr

/-- A diagnosis. The three last constructors wrap the error that caused them. -/
inductive Error where
  | unreadable (rest : String)
  | missingOperands (operation : String)
  | commaOutsideCall
  | unopenedSquare
  | unopenedRound
  | unclosedRound
  | unclosedSquare
  | missingOperator
  | indexCount (count : Nat)
  | undefinedVariable (name : String)
  | undefinedSubstitution (name : String)
  | impliedProduct (name first rest : String)
  | undefinedFunction (name : String)
  | undefinedOperator (name : String)
  | noFittingSignature (name given : String)
  | unboundArgument (name : String)
  | notEnumerable (kind : String)
  | conditionNotBoolean (kind : String)
  | noDefaultCase
  | caseNotBoolean (kind : String)
  | invalidIndex (index : Int) (size : Nat)
  | notSubscriptable
  | definitionCount
  | requirementNotBoolean
  | tooManyAttempts
  | binderNames
  | kindNotText
  | emptyChoice
  | emptyList (operation : String)
  | complexOrder
  | complexNotAllowed (place : String)
  | complexCommonFactor
  | complexCommonMultiple
  | complexCombinations
  | combinationsNegativeTotal
  | combinationsNegativeChoice
  | combinationsChoiceTooLarge
  | complexPermutations
  | permutationsNegativeTotal
  | permutationsNegativeChoice
  | permutationsChoiceTooLarge
  | crossNotThreeDimensional
  | productSizes
  | determinantNotSquare
  | determinantTooBig
  | raggedMatrix
  | unboundReplacement (name rule : String)
  | noReplacement (rule : String)
  | noRulesets
  | undefinedRuleset (name : String)
  | tooManySteps (limit : Int)
  | badCapture (kind : String)
  | missingKind
  | emptyName
  | emptyDefinition (name : String)
  | circularReference (name path : String)
  | undefinedDefinition (name : String)
  | tooManyRuns (limit : Int)
  | unsupportedLanguage (name language : String)
  | inDependency (name : String) (cause : Error)
  | inDefinition (name : String) (cause : Error)
  | inFunction (name : String) (cause : Error)
  deriving DecidableEq, Repr

namespace Error

/-- The stable identifier of the kind of error. -/
def kind : Error → String
  | unreadable _ => "jme.tokenise.invalid"
  | missingOperands _ => "jme.shunt.not enough args"
  | commaOutsideCall => "jme.shunt.no left bracket in function"
  | unopenedSquare => "jme.shunt.no left square bracket"
  | unopenedRound => "jme.shunt.no left bracket"
  | unclosedRound => "jme.shunt.no right bracket"
  | unclosedSquare => "jme.shunt.no right square bracket"
  | missingOperator => "jme.shunt.missing operator"
  | indexCount _ => "jme.shunt.list index arity"
  | undefinedVariable _ => "jme.evaluate.undefined variable"
  | undefinedSubstitution _ => "jme.substituteTree.undefined variable"
  | impliedProduct .. => "jme.typecheck.function maybe implicit multiplication"
  | undefinedFunction _ => "jme.typecheck.function not defined"
  | undefinedOperator _ => "jme.typecheck.op not defined"
  | noFittingSignature .. => "jme.typecheck.no right type definition"
  | unboundArgument _ => "jme.typecheck.no right type unbound name"
  | notEnumerable _ => "jme.typecheck.map not on enumerable"
  | conditionNotBoolean _ => "jme.func.if.condition not a boolean"
  | noDefaultCase => "jme.func.switch.no default case"
  | caseNotBoolean _ => "jme.func.switch.condition not a boolean"
  | invalidIndex .. => "jme.func.listval.invalid index"
  | notSubscriptable => "jme.func.listval.not a list"
  | definitionCount => "jme.func.satisfy.wrong number of definitions"
  | requirementNotBoolean => "jme.func.satisfy.condition not a boolean"
  | tooManyAttempts => "jme.func.satisfy.took too many runs"
  | binderNames => "jme.func.map.names"
  | kindNotText => "jme.func.isa.kind"
  | emptyChoice => "jme.func.random.empty"
  | emptyList _ => "jme.func.empty list"
  | complexOrder => "jme.math.order complex numbers"
  | complexNotAllowed _ => "jme.math.complex not allowed"
  | complexCommonFactor => "jme.math.gcf.complex"
  | complexCommonMultiple => "jme.math.lcm.complex"
  | complexCombinations => "jme.math.combinations.complex"
  | combinationsNegativeTotal => "jme.math.combinations.n less than zero"
  | combinationsNegativeChoice => "jme.math.combinations.k less than zero"
  | combinationsChoiceTooLarge => "jme.math.combinations.n less than k"
  | complexPermutations => "jme.math.permutations.complex"
  | permutationsNegativeTotal => "jme.math.permutations.n less than zero"
  | permutationsNegativeChoice => "jme.math.permutations.k less than zero"
  | permutationsChoiceTooLarge => "jme.math.permutations.n less than k"
  | crossNotThreeDimensional => "jme.vectormath.cross.not 3d"
  | productSizes => "jme.matrixmath.mul.different sizes"
  | determinantNotSquare => "jme.matrixmath.abs.non-square"
  | determinantTooBig => "jme.matrixmath.abs.too big"
  | raggedMatrix => "jme.matrix.ragged"
  | unboundReplacement .. => "jme.rules.unbound replacement name"
  | noReplacement _ => "jme.rules.no result"
  | noRulesets => "jme.display.collectRuleset.no sets"
  | undefinedRuleset _ => "jme.display.collectRuleset.set not defined"
  | tooManySteps _ => "jme.display.simplify.too many steps"
  | badCapture _ => "jme.pattern.bad capture"
  | missingKind => "jme.pattern.m_type"
  | emptyName => "jme.variables.empty name"
  | emptyDefinition _ => "jme.variables.empty definition"
  | circularReference .. => "jme.variables.circular reference"
  | undefinedDefinition _ => "jme.variables.variable not defined"
  | tooManyRuns _ => "jme.variables.too many runs"
  | unsupportedLanguage .. => "jme.variables.unsupported function language"
  | inDependency .. => "jme.variables.error computing dependency"
  | inDefinition .. => "jme.variables.error evaluating variable"
  | inFunction .. => "jme.variables.error making function"

/-- The part of the work in which the error arose. A wrapped error keeps the category of its cause. -/
def category : Error → Category
  | unreadable _ => .lexical
  | missingOperands _ | commaOutsideCall | unopenedSquare | unopenedRound | unclosedRound
  | unclosedSquare | missingOperator | indexCount _ | noReplacement _ | badCapture _ | missingKind =>
    .parsing
  | undefinedVariable _ | undefinedSubstitution _ | unboundReplacement .. | noRulesets
  | undefinedRuleset _ | emptyName | emptyDefinition _ | circularReference ..
  | undefinedDefinition _ => .binding
  | impliedProduct .. | undefinedFunction _ | undefinedOperator _ | noFittingSignature ..
  | unboundArgument _ | notEnumerable _ | conditionNotBoolean _ | noDefaultCase | caseNotBoolean _
  | definitionCount | requirementNotBoolean | binderNames | kindNotText => .dispatching
  | invalidIndex .. | notSubscriptable | emptyChoice | emptyList _ | complexOrder
  | complexNotAllowed _ | complexCommonFactor | complexCommonMultiple | complexCombinations
  | combinationsNegativeTotal | combinationsNegativeChoice | combinationsChoiceTooLarge
  | complexPermutations | permutationsNegativeTotal | permutationsNegativeChoice
  | permutationsChoiceTooLarge | crossNotThreeDimensional | productSizes | determinantNotSquare
  | determinantTooBig | raggedMatrix => .numeric
  | tooManyAttempts | tooManySteps _ | tooManyRuns _ => .resource
  | unsupportedLanguage .. => .general
  | inDependency _ cause | inDefinition _ cause | inFunction _ cause => cause.category

/-- The error that this one wraps. -/
def cause? : Error → Option Error
  | inDependency _ cause | inDefinition _ cause | inFunction _ cause => some cause
  | _ => none

/-- The wording of each kind. A digit in braces stands for the argument with that number. -/
def templates : List (String × String) := [
  ("jme.tokenise.invalid", "Invalid expression: {0}"),
  ("jme.shunt.not enough args", "Not enough arguments for operation {0}"),
  ("jme.shunt.no left bracket in function",
    "No matching left bracket in function application or tuple"),
  ("jme.shunt.no left square bracket", "No matching left square bracket"),
  ("jme.shunt.no left bracket", "No matching left bracket"),
  ("jme.shunt.no right bracket", "No matching right bracket"),
  ("jme.shunt.no right square bracket", "No matching right square bracket to end list"),
  ("jme.shunt.missing operator", "Expression can't be evaluated -- missing an operator."),
  ("jme.shunt.list index arity", "A list index must be a single value, got {0}"),
  ("jme.evaluate.undefined variable", "Variable {0} is undefined"),
  ("jme.substituteTree.undefined variable", "Undefined variable: {0}"),
  ("jme.typecheck.function maybe implicit multiplication",
    "Operation {0} is not defined. Did you mean {1}*{2}(...)?"),
  ("jme.typecheck.function not defined",
    "Operation '{0}' is not defined. Did you mean {0}*(...)?"),
  ("jme.typecheck.op not defined", "Operation '{0}' is not defined."),
  ("jme.typecheck.no right type definition", "No definition of '{0}' of correct type found."),
  ("jme.typecheck.no right type unbound name", "Variable {0} is not defined"),
  ("jme.typecheck.map not on enumerable",
    "map operation must work over a list or a range, not {0}"),
  ("jme.func.if.condition not a boolean", "The condition of if() must be a boolean, not {0}"),
  ("jme.func.switch.no default case", "No default case for Switch statement"),
  ("jme.func.switch.condition not a boolean",
    "A condition in switch() must be a boolean, not {0}"),
  ("jme.func.listval.invalid index", "Invalid list index {0} on list of size {1}"),
  ("jme.func.listval.not a list", "Object is not subscriptable"),
  ("jme.func.satisfy.wrong number of definitions", "satisfy() needs one definition for each name"),
  ("jme.func.satisfy.condition not a boolean", "A condition in satisfy() must be a boolean"),
  ("jme.func.satisfy.took too many runs", "satisfy() took too many runs"),
  ("jme.func.map.names", "map() needs a name or a list of names to bind"),
  ("jme.func.isa.kind", "The second argument of isa must be a type name"),
  ("jme.func.random.empty", "Can't choose a random value from an empty collection"),
  ("jme.func.empty list", "Can't take the {0} of an empty list"),
  ("jme.math.order complex numbers", "Can't order complex numbers"),
  ("jme.math.complex not allowed", "Complex numbers are not allowed in {0}"),
  ("jme.math.gcf.complex", "Can't take GCF of complex numbers"),
  ("jme.math.lcm.complex", "Can't find LCM of complex numbers"),
  ("jme.math.combinations.complex", "Can't compute combinations of complex numbers"),
  ("jme.math.combinations.n less than zero", "Can't compute combinations: n is less than zero"),
  ("jme.math.combinations.k less than zero", "Can't compute combinations: k is less than zero"),
  ("jme.math.combinations.n less than k", "Can't compute combinations: n is less than k"),
  ("jme.math.permutations.complex", "Can't compute permutations of complex numbers"),
  ("jme.math.permutations.n less than zero", "Can't compute permutations: n is less than zero"),
  ("jme.math.permutations.k less than zero", "Can't compute permutations: k is less than zero"),
  ("jme.math.permutations.n less than k", "Can't compute permutations: n is less than k"),
  ("jme.vectormath.cross.not 3d", "Can only take the cross product of 3-dimensional vectors."),
  ("jme.matrixmath.mul.different sizes", "Can't multiply matrices of different sizes."),
  ("jme.matrixmath.abs.non-square",
    "Can't compute the determinant of a matrix which isn't square."),
  ("jme.matrixmath.abs.too big",
    "Sorry, can't compute the determinant of a matrix bigger than 3x3 yet."),
  ("jme.matrix.ragged", "All rows of a matrix must contain numbers"),
  ("jme.rules.unbound replacement name",
    "Name {0} in the replacement of rule {1} is not captured by its pattern"),
  ("jme.rules.no result", "Rule {0} has no replacement"),
  ("jme.display.collectRuleset.no sets", "No sets given to collectRuleset!"),
  ("jme.display.collectRuleset.set not defined", "Ruleset {0} has not been defined"),
  ("jme.display.simplify.too many steps", "Simplification did not settle after {0} rewrites"),
  ("jme.pattern.bad capture", "The right-hand side of ; must be a name, not {0}"),
  ("jme.pattern.m_type", "m_type needs a type name"),
  ("jme.variables.empty name", "A variable has not been given a name."),
  ("jme.variables.empty definition", "Definition of variable {0} is empty."),
  ("jme.variables.circular reference",
    "Circular variable reference in definition of {0}: {1}"),
  ("jme.variables.variable not defined", "Variable {0} is not defined."),
  ("jme.variables.error computing dependency", "Error computing referenced variable {0}"),
  ("jme.variables.error evaluating variable", "Error evaluating variable {0}: {1}"),
  ("jme.variables.too many runs",
    "Could not generate a set of variables satisfying the condition in {0} runs"),
  ("jme.variables.unsupported function language",
    "Custom function {0} is written in {1}; only jme functions are supported"),
  ("jme.variables.error making function", "Error making function {0}: {1}")]

/-- Replaces each digit in braces by the argument with that number; `none` if there is no such
argument. Arguments are not scanned again. -/
def fill (args : List String) : List Char → Option (List Char)
  | '{' :: d :: '}' :: rest =>
    if d.isDigit then do
      let arg ← args[d.toNat - '0'.toNat]?
      return arg.toList ++ (← fill args rest)
    else do return '{' :: d :: '}' :: (← fill args rest)
  | c :: rest => do return c :: (← fill args rest)
  | [] => some []

/-- The wording of a kind with its arguments. A kind without a template is written in front of its
arguments; a template that asks for more arguments than there are has no wording. -/
def wording (kind : String) (args : List String) : Except Fault String :=
  match templates.lookup kind with
  | none => .ok (" ".intercalate (kind :: args))
  | some template =>
    match fill args template.toList with
    | some text => .ok (String.ofList text)
    | none => .error .outOfBounds

/-- The wording of a kind that has one; the kind itself otherwise. -/
def phrase (kind : String) (args : List String) : String :=
  match wording kind args with
  | .ok text => text
  | .error _ => kind

/-- The arguments of the message, as text. A wrapper with a message of its cause has it as the last
argument. -/
def args : Error → List String
  | unreadable t | missingOperands t | undefinedVariable t | undefinedSubstitution t
  | undefinedFunction t | undefinedOperator t | unboundArgument t | notEnumerable t
  | conditionNotBoolean t | caseNotBoolean t | emptyList t | complexNotAllowed t | noReplacement t
  | undefinedRuleset t | badCapture t | emptyDefinition t | undefinedDefinition t => [t]
  | indexCount n => [toString n]
  | impliedProduct name first rest => [name, first, rest]
  | noFittingSignature s t | unboundReplacement s t | circularReference s t
  | unsupportedLanguage s t => [s, t]
  | invalidIndex index size => [toString index, toString size]
  | tooManySteps limit | tooManyRuns limit => [toString limit]
  | inDependency name _ => [name]
  | inDefinition name cause | inFunction name cause => [name, phrase cause.kind cause.args]
  | _ => []

/-- The message of an error. -/
def message (e : Error) : String :=
  phrase e.kind e.args

end Error

/-- What an operation can end with instead of a result. -/
inductive Failure where
  | error (e : Error)
  | fault (f : Fault)
  deriving DecidableEq, Repr

/-- A result, or a failure. -/
abbrev Outcome := Except Failure

instance : Coe Error Failure := ⟨.error⟩
instance : Coe Fault Failure := ⟨.fault⟩

/-- A computation that can only break down is one that can fail. -/
instance : MonadLift (Except Fault) Outcome where
  monadLift
    | .ok a => .ok a
    | .error f => .error (.fault f)

end MathExpr
