import MathExpr.Display.Tex
import MathExpr.Draw
import MathExpr.Number.Counting
import MathExpr.Ordering
import MathExpr.Value.Sets
/-!
# Primitives

The built-in operations on values. Each primitive is a name for an operation, and `Primitive.apply`
carries it out on arguments; which arguments reach a primitive is for the signatures of the library to
say, so that a primitive that is given others breaks down as unsuitable.
-/

namespace MathExpr

/-- The functions of a single number. -/
inductive Scalar where
  | arg | re | im | conj | sqrt | ln | log | exp | factorial | gamma
  | sin | cos | tan | cosec | sec | cot | arcsin | arccos | arctan
  | sinh | cosh | tanh | cosech | sech | coth | arcsinh | arccosh | arctanh
  | ceil | floor | trunc | fract | degrees | radians | round | sign
  deriving DecidableEq, Repr

/-- The value of a function of a single number. -/
def Scalar.apply (a : Number) : Scalar → Except Fault Number
  | arg => .ok (.real a.arg)
  | re => .ok (.real a.re)
  | im => .ok (.real a.im)
  | conj => .ok a.conj
  | sqrt => .ok a.sqrt
  | ln => a.ln
  | log => a.log
  | exp => a.exp
  | factorial => a.factorial
  | gamma => a.gamma
  | sin => a.sin
  | cos => a.cos
  | tan => a.tan
  | cosec => a.cosec
  | sec => a.sec
  | cot => a.cot
  | arcsin => .ok a.arcsin
  | arccos => .ok a.arccos
  | arctan => a.arctan
  | sinh => a.sinh
  | cosh => a.cosh
  | tanh => a.tanh
  | cosech => a.cosech
  | sech => a.sech
  | coth => a.coth
  | arcsinh => a.arcsinh
  | arccosh => .ok a.arccosh
  | arctanh => a.arctanh
  | ceil => .ok a.ceil
  | floor => .ok a.floor
  | trunc => .ok a.trunc
  | fract => .ok a.fract
  | degrees => .ok a.degrees
  | radians => .ok a.radians
  | round => .ok a.round
  | sign => .ok a.sign

/-- The built-in operations. -/
inductive Primitive where
  -- arithmetic
  | same | negate | add | append | join | subtract | multiply | divide | power
  -- comparison and logic
  | less | greater | lessOrEqual | greaterOrEqual | equal | unequal
  | not | both | either | exclusive | implies | divides
  -- ranges and collections
  | range | rangeStep | isInRange | isInItems | exclude | distinct | toList | element | slice
  -- vectors and matrices
  | vector | vectorOfList | matrix | matrixOfVectors | rowVector | rowVectorOfList | dot | cross
  | determinant | transpose | identity
  -- sets
  | setOfItems | set | union | intersection
  -- numbers
  | size | scalar (f : Scalar) | logBase | isInteger | isNaN | mod | root | max | min | maxOf | minOf
  | permutations | combinations | commonFactor | commonFactorBarPi | commonMultiple
  | commonMultipleOf | award | factorise
  -- rounding and formatting
  | roundPlaces | roundFigures | writePlaces | writeFigures
  -- lists
  | sum | product | sort | deal | shuffle
  -- random choices
  | randomInRange | randomOfList | random
  -- texts
  | text | latex | capitalise | upper | lower | pluralise
  deriving DecidableEq, Repr

namespace Primitive

/-! ## Arguments -/

/-- The kinds of values, for a message. -/
def kinds (args : List Value) : String := ", ".intercalate (args.map Value.kind)

/-- The values of a list as numbers, which they all have to be. -/
def numbers (name : String) (items : List Value) : Outcome (List Number) :=
  (items.mapM fun | Value.number n => some n | _ => none).elim
    (.error (.error (.noFittingSignature name (kinds items)))) .ok

/-- The values of a list as real numbers. -/
def reals (name : String) (items : List Value) : Outcome (List Float) := do
  (← numbers name items).mapM (Number.realAt name)

/-- The discrete values of a range. -/
def rangeItems (r : Range) : List Value := r.values.map Value.real

/-- A value as text: a text as it is, any other as source text. -/
def asText : Value → Except Fault String
  | .text s _ _ => .ok s
  | v => v.source

/-! ## Subscripts -/

/-- The position in a sequence that a subscript means. Negative ones count from the end. -/
def position (index : Number) (size : Nat) : Outcome Nat := do
  let i ← Real.truncInt index.re
  let k := if i < 0 then i + size else i
  if 0 ≤ k ∧ k < size then return k.toNat
  else .error (.error (.invalidIndex i size))

/-- A bound of a slice of a sequence. A negative bound counts from the end; what still lies outside is
cut off. -/
def sliceBound (bound : Int) (size : Nat) : Nat :=
  let k := if bound < 0 then bound + size else bound
  let k := if k < 0 then k + size else k
  Nat.min k.toNat size

/-- The elements from one bound of a range up to the other, which is left out. -/
def sliceOf {α : Type} (r : Range) (items : List α) : Except Fault (List α) := do
  let start ← Real.truncInt r.start
  let stop ← Real.truncInt r.stop
  let from' := sliceBound start items.length
  return (items.take (sliceBound stop items.length)).drop from'

/-- An element of a collection. -/
def elementOf (collection : Value) (index : Number) : Outcome Value :=
  let pick {α : Type} (items : List α) (make : α → Value) : Outcome Value := do
    match items[← position index items.length]? with
    | some a => return make a
    | none => .error (.fault .outOfBounds)
  match collection with
  | .list items => pick items id
  | .text s _ _ => pick s.toList fun c => .plainText (String.ofList [c])
  | .vector entries => pick entries .real
  | .matrix m => pick m.rows .vector
  | .range r => pick r.values .real
  | _ => .error (.error .notSubscriptable)

/-- The part of a collection between the bounds of a range. -/
def sliceValue (collection : Value) (r : Range) : Outcome Value :=
  match collection with
  | .list items => return .list (← sliceOf r items)
  | .text s _ _ => return .plainText (String.ofList (← sliceOf r s.toList))
  | .vector entries => return .vector (← sliceOf r entries)
  | _ => .error (.error .notSubscriptable)

/-! ## Matrices -/

/-- The rows that a matrix is built from: a single list of lists holds the rows itself. -/
def matrixRows : List (List Value) → List (List Value)
  | [row] =>
    if row.isEmpty then [row]
    else (row.mapM fun | Value.list items => some items | _ => none).getD [row]
  | rows => rows

/-- The matrix with rows of numbers. -/
def matrixOf (rows : List (List Value)) : Outcome Value := do
  let rows ← (matrixRows rows).mapM fun row =>
    (row.mapM fun | Value.number n => some n.re | _ => none).elim
      (.error (.error .raggedMatrix)) .ok
  return .matrix (.ofRows rows)

/-- The power of a matrix with a natural exponent. -/
def matrixPower (m : Matrix) (n : Number) : Outcome Value := do
  if !n.isInteger || n.re < 0.0 then
    .error (.error (.noFittingSignature "^" "matrix, number"))
  else if m.height ≠ m.columns then .error (.error .productSizes)
  else return .matrix (m.powNat (← Real.truncInt n.re).toNat)

/-- The size of a unit matrix. -/
def matrixSize : Number → Except Fault Nat
  | .complex _ => .error .unsuitable
  | .real x => do
    let n ← Real.truncInt x
    if n < 0 then .error .outsideDomain else return n.toNat

/-! ## Lists -/

/-- The largest or smallest number of a list. -/
def extremum (name : String) (f : Number → Number → Outcome Number) (items : List Value) :
    Outcome Value := do
  match ← numbers name items with
  | [] => .error (.error (.emptyList name))
  | first :: rest => return .number (← rest.foldlM f first)

/-- A list of numbers or of texts in increasing order. -/
def sorted (items : List Value) : Outcome (List Value) := do
  if items.all fun v => v.kind == "number" then
    let keys ← reals "sort" items
    return (Ordering.insertionSort (fun a b => decide (a.1 < b.1)) (keys.zip items)).map Prod.snd
  else
    match items.mapM fun | Value.text s _ _ => some s | _ => none with
    | some keys =>
      return (Ordering.insertionSort (fun a b => decide (a.1 < b.1)) (keys.zip items)).map Prod.snd
    | none => .error (.error (.noFittingSignature "sort" (kinds items)))

/-- A number with a number of places or figures, as text. -/
def writtenWith (counting : Counting) (a precision : Number) : Except Fault Value := do
  let settings : Settings := { counting := some counting, precision := .given precision }
  return .plainText (← a.written settings)

/-! ## Application -/

/-- A vector or matrix as a factor of a product. -/
def factor : Value → Outcome Factor
  | .vector entries => .ok (.vector entries)
  | .matrix m => .ok (.matrix m)
  | _ => .error (.fault .unsuitable)

/-! Each topic hands on what is not its own to the next, and the last gives up. -/

/-- Texts. -/
def applyTexts : Primitive → List Value → Outcome Value
  | text, [a] => return .plainText (← asText a)
  | latex, [a] => return .text (← Tex.value {} a) false true
  | capitalise, [.text s _ _] => .ok (.plainText (Text.capitalise s))
  | upper, [.text s _ _] => .ok (.plainText (Text.upper s))
  | lower, [.text s _ _] => .ok (.plainText (Text.lower s))
  | pluralise, [.number n, .text one _ _, .text many _ _] =>
    .ok (.plainText (if n.eq (.real 1.0) then one else many))
  | _, _ => .error (.fault .unsuitable)

/-- Lists. -/
def applyLists : Primitive → List Value → Outcome Value
  | sum, [.list items] => do
    return .number ((← numbers "sum" items).foldl Number.add (.real 0.0))
  | sum, [.vector entries] => .ok (.real (Entries.sum entries))
  | product, [.list items] => do
    return .number ((← numbers "prod" items).foldl Number.mul (.real 1.0))
  | product, [.vector entries] => .ok (.real (Entries.product entries))
  | sort, [.list items] => return .list (← sorted items)
  | p, args => applyTexts p args

/-- Rounding and formatting. -/
def applyRounding : Primitive → List Value → Outcome Value
  | roundPlaces, [.number a, .number b] => return .number (← a.roundPlaces (.real b.re))
  | roundPlaces, [.vector a, .number b] => return .vector (← Entries.roundPlaces a (.real b.re))
  | roundPlaces, [.matrix a, .number b] =>
    return .matrix (← a.mapM fun x => Number.roundPlacesReal x (.real b.re))
  | roundFigures, [.number a, .number b] => return .number (← a.roundFigures (.real b.re))
  | roundFigures, [.vector a, .number b] => return .vector (← Entries.roundFigures a (.real b.re))
  | roundFigures, [.matrix a, .number b] =>
    return .matrix (← a.mapM fun x => Number.roundFiguresReal x (.real b.re))
  | writePlaces, [.number a, .number b] => writtenWith .places a b
  | writeFigures, [.number a, .number b] => writtenWith .figures a b
  | p, args => applyLists p args

/-- Numbers. -/
def applyNumbers : Primitive → List Value → Outcome Value
  | size, [.number a] => return .real (← a.abs)
  | size, [.vector entries] => .ok (.real (Entries.norm entries))
  | size, [.list items] | size, [.set items] => .ok (.nat items.length)
  | size, [.text s _ _] => .ok (.nat s.length)
  | size, [.range r] => .ok (.nat r.count)
  | scalar f, [.number a] => return .number (← f.apply a)
  | logBase, [.number a, .number b] => return .number (← a.logBase b)
  | isInteger, [.number a] => .ok (.boolean a.isInteger)
  | isNaN, [.number a] => .ok (.boolean a.isNaN)
  | mod, [.number a, .number b] => return .number (← a.mod b)
  | root, [.number a, .number b] => return .number (← a.root b)
  | max, [.number a, .number b] => return .number (← a.max b)
  | min, [.number a, .number b] => return .number (← a.min b)
  | maxOf, [.list items] => extremum "max" Number.max items
  | minOf, [.list items] => extremum "min" Number.min items
  | permutations, [.number a, .number b] => return .number (← a.permutations b)
  | combinations, [.number a, .number b] => return .number (← a.combinations b)
  | commonFactor, [.number a, .number b] => return .number (← a.commonFactor b)
  | commonFactorBarPi, [.number a, .number b] => return .number (← a.commonFactorBarPi b)
  | commonMultiple, items => do
    return .number (← Number.commonMultipleOf (← numbers "lcm" items))
  | commonMultipleOf, [.list items] => do
    return .number (← Number.commonMultipleOf (← numbers "lcm" items))
  | award, [.number a, .boolean b] => .ok (.number (if b then a else .real 0.0))
  | factorise, [.number a] => .ok (.list (a.factorise.map .number))
  | p, args => applyRounding p args

/-- Sets. -/
def applySets : Primitive → List Value → Outcome Value
  | setOfItems, [.list items] => .ok (.setOf items)
  | setOfItems, [.range r] => .ok (.setOf (rangeItems r))
  | set, items => .ok (.setOf items)
  | union, [.set a, .set b] => .ok (.setOf (Value.union a b))
  | intersection, [.set a, .set b] => .ok (.setOf (Value.intersection a b))
  | p, args => applyNumbers p args

/-- Vectors and matrices. -/
def applyVectors : Primitive → List Value → Outcome Value
  | vector, items => return .vector (← reals "vector" items)
  | vectorOfList, [.list items] => return .vector (← reals "vector" items)
  | matrix, rows =>
    (rows.mapM fun | Value.list items => some items | _ => none).elim
      (.error (.fault .unsuitable)) matrixOf
  | matrixOfVectors, rows =>
    (rows.mapM fun | Value.vector xs => some (xs.map Value.real) | _ => none).elim
      (.error (.fault .unsuitable)) matrixOf
  | rowVector, items => return .matrix (.ofRow (← reals "rowvector" items))
  | rowVectorOfList, [.list items] => return .matrix (.ofRow (← reals "rowvector" items))
  | dot, [a, b] => do return .real (← (← factor a).dot (← factor b))
  | cross, [a, b] => do return .vector (← (← factor a).cross (← factor b))
  | determinant, [.matrix m] => return .real (← m.determinant)
  | transpose, [.matrix m] => .ok (.matrix m.transpose)
  | transpose, [.vector entries] => .ok (.matrix (.ofRow entries))
  | identity, [.number n] => return .matrix (.identity (← matrixSize n))
  | p, args => applySets p args

/-- Ranges and collections. -/
def applyCollections : Primitive → List Value → Outcome Value
  | range, [.number a, .number b] => .ok (.range ⟨a.re, b.re, 1.0⟩)
  | rangeStep, [.range r, .number s] => .ok (.range ⟨r.start, r.stop, s.re⟩)
  | isInRange, [.number x, .range r] =>
    .ok (.boolean (if r.isContinuous then decide (r.start ≤ x.re) && decide (x.re ≤ r.stop)
      else r.values.any fun v => x.eq (.real v)))
  | isInItems, [x, .list items] | isInItems, [x, .set items] => .ok (.boolean (x.isIn items))
  | exclude, [.list a, .list b] => .ok (.list (Value.excluding a b))
  | exclude, [.list a, b] => .ok (.list (Value.excluding a [b]))
  | exclude, [.range r, .range s] => .ok (.list (Value.excluding (rangeItems r) (rangeItems s)))
  | exclude, [.range r, .list b] => .ok (.list (Value.excluding (rangeItems r) b))
  | exclude, [.range r, b] => .ok (.list (Value.excluding (rangeItems r) [b]))
  | distinct, [.list a] => .ok (.list (Value.distinct a))
  | toList, [.range r] => .ok (.list (rangeItems r))
  | toList, [.set items] => .ok (.list items)
  | toList, [.vector entries] => .ok (.list (entries.map .real))
  | toList, [.matrix m] => .ok (.list (m.rows.map fun row => .list (row.map .real)))
  | element, [a, .number i] => elementOf a i
  | slice, [a, .range r] => sliceValue a r
  | p, args => applyVectors p args

/-- Comparison and logic. -/
def applyLogic : Primitive → List Value → Outcome Value
  | less, [.number a, .number b] => return .boolean (← a.lt b)
  | greater, [.number a, .number b] => return .boolean (← a.gt b)
  | lessOrEqual, [.number a, .number b] => return .boolean (← a.le b)
  | greaterOrEqual, [.number a, .number b] => return .boolean (← a.ge b)
  | equal, [a, b] => .ok (.boolean (a.eqv b))
  | unequal, [a, b] => .ok (.boolean (!a.eqv b))
  | not, [.boolean a] => .ok (.boolean !a)
  | both, [.boolean a, .boolean b] => .ok (.boolean (a && b))
  | either, [.boolean a, .boolean b] => .ok (.boolean (a || b))
  | exclusive, [.boolean a, .boolean b] => .ok (.boolean (a != b))
  | implies, [.boolean a, .boolean b] => .ok (.boolean (!a || b))
  | divides, [.number a, .number b] => .ok (.boolean (a.divides b))
  | p, args => applyCollections p args

/-- Arithmetic. -/
def applyArithmetic : Primitive → List Value → Outcome Value
  | same, [a] => .ok a
  | negate, [.number a] => .ok (.number a.neg)
  | negate, [.vector a] => .ok (.vector (Entries.neg a))
  | negate, [.matrix a] => .ok (.matrix a.neg)
  | add, [.number a, .number b] => .ok (.number (a.add b))
  | add, [.list a, .list b] => .ok (.list (a ++ b))
  | add, [.vector a, .vector b] => .ok (.vector (Entries.add a b))
  | add, [.matrix a, .matrix b] => .ok (.matrix (a.add b))
  | append, [.list a, b] => .ok (.list (a ++ [b]))
  | join, [a, b] => do
    let s ← asText a
    return .plainText (s ++ (← asText b))
  | subtract, [.number a, .number b] => .ok (.number (a.sub b))
  | subtract, [.vector a, .vector b] => .ok (.vector (Entries.sub a b))
  | subtract, [.matrix a, .matrix b] => .ok (.matrix (a.sub b))
  | subtract, [.set a, .set b] => .ok (.setOf (Value.minus a b))
  | multiply, [.number a, .number b] => .ok (.number (a.mul b))
  | multiply, [.number k, .vector a] | multiply, [.vector a, .number k] =>
    return .vector (Entries.scale (← k.realAt "*") a)
  | multiply, [.number k, .matrix a] | multiply, [.matrix a, .number k] =>
    return .matrix (a.scale (← k.realAt "*"))
  | multiply, [.matrix a, .matrix b] => return .matrix (← a.mul b)
  | multiply, [.matrix a, .vector b] => return .vector (← a.mulEntries b)
  | multiply, [.vector a, .matrix b] => return .vector (← Matrix.entriesMul a b)
  | divide, [.number a, .number b] => .ok (.number (a.div b))
  | divide, [.vector a, .number k] => do
    let k ← k.realAt "/"
    return .vector (a.map (· / k))
  | divide, [.matrix a, .number k] => do
    let k ← k.realAt "/"
    return .matrix (a.map (· / k))
  | power, [.number a, .number b] => return .number (← a.pow b)
  | power, [.matrix a, .number b] => matrixPower a b
  | p, args => applyLogic p args

/-- The value of a primitive that draws no random numbers. -/
def applyPure : Primitive → List Value → Outcome Value := applyArithmetic

/-- A random element of a list, which must not be empty. -/
def chooseFrom (items : List Value) : Action Value :=
  if items.isEmpty then Action.fail .emptyChoice else Action.choose items

/-- The value of a primitive. -/
def apply : Primitive → List Value → Action Value
  | deal, [.number n] => do
    let n ← Action.ofFault (Real.truncInt n.re)
    return .list (← Action.shuffle ((List.range n.toNat).map Value.nat))
  | shuffle, [.list items] => return .list (← Action.shuffle items)
  | shuffle, [.range r] => return .list (← Action.shuffle (rangeItems r))
  | randomInRange, [.range r] =>
    if r.isContinuous then return .real (← Action.uniform r.start r.stop)
    else chooseFrom (rangeItems r)
  | randomOfList, [.list items] => chooseFrom items
  | random, items => chooseFrom items
  | p, args => Action.ofOutcome (applyPure p args)

end Primitive

end MathExpr
