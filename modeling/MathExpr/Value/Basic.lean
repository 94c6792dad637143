import MathExpr.Matrix
import MathExpr.Value.Range
import MathExpr.Text.Case
/-!
# Values

The values of expressions. A name is a value too: it stands for itself where it has no other value.
Sets are lists of elements of which no two are equal, in order of first appearance.
-/

namespace MathExpr

/-- A value.

* A text is `safe` if it has no slots to fill in, and `latex` if it is TeX already.
* A name has hints on how to display it. -/
inductive Value where
  | number (n : Number)
  | text (content : String) (safe latex : Bool)
  | boolean (b : Bool)
  | name (name : String) (hints : List String)
  | list (items : List Value)
  | set (items : List Value)
  | vector (entries : List Float)
  | matrix (m : Matrix)
  | range (r : Range)

namespace Value

/-- The real number `x`. -/
def real (x : Float) : Value := number (.real x)

/-- The natural number `n`. -/
def nat (n : Nat) : Value := number (.ofNat n)

/-- A text with neither mark. -/
def plainText (s : String) : Value := text s false false

/-- The kind of a value, as expressions name it. -/
def kind : Value → String
  | number _ => "number"
  | text .. => "string"
  | boolean _ => "boolean"
  | name .. => "name"
  | list _ => "list"
  | set _ => "set"
  | vector _ => "vector"
  | matrix _ => "matrix"
  | range _ => "range"

mutual

/-- Equality of values. Numbers are equal if their parts are, so that a real number can equal a complex
one; names are equal up to case; vectors are equal up to zeros at the end; sets are equal if each
element of the first is in the second, and they have the same number of elements. -/
def eqv : Value → Value → Bool
  | number a, number b => a.eq b
  | text a _ _, text b _ _ => a == b
  | boolean a, boolean b => a == b
  | name a h, name b k => Text.lower a == Text.lower b && h == k
  | list xs, list ys => eqvAll xs ys
  | set xs, set ys => xs.length == ys.length && subset xs ys
  | vector xs, vector ys => Entries.eq xs ys
  | matrix a, matrix b => a.eq b
  | range a, range b => a.eq b
  | _, _ => false

/-- Equality of lists, element by element. -/
def eqvAll : List Value → List Value → Bool
  | [], [] => true
  | x :: xs, y :: ys => eqv x y && eqvAll xs ys
  | _, _ => false

/-- Whether each value of the first list equals one of the second. -/
def subset : List Value → List Value → Bool
  | [], _ => true
  | x :: xs, ys => ys.any (fun y => eqv x y) && subset xs ys

end

end Value

end MathExpr
