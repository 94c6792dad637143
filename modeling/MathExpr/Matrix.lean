import MathExpr.Number.Rounding
/-!
# Vectors and matrices

Vectors are lists of real entries, matrices lists of rows of one width. Sums, differences and inner
products fill up the shorter operand with zeros instead of failing.
-/

namespace MathExpr

/-! ## Vectors -/

namespace Entries

/-- The entries, filled up with zeros to the width `n`. -/
def pad (n : Nat) (xs : List Float) : List Float :=
  xs ++ List.replicate (n - xs.length) 0.0

/-- The values of `f` on the entries of two vectors, the shorter one filled up. -/
def zipPadded (f : Float → Float → Float) (xs ys : List Float) : List Float :=
  let n := max xs.length ys.length
  List.zipWith f (pad n xs) (pad n ys)

def add : List Float → List Float → List Float := zipPadded (· + ·)
def sub : List Float → List Float → List Float := zipPadded (· - ·)
def neg (xs : List Float) : List Float := xs.map (- ·)
def scale (k : Float) (xs : List Float) : List Float := xs.map (k * ·)

/-- The inner product. -/
def dot (xs ys : List Float) : Float :=
  (List.zipWith (· * ·) xs ys).foldl (· + ·) 0.0

/-- The Euclidean length. -/
def norm (xs : List Float) : Float := (dot xs xs).sqrt

/-- Equality up to zeros at the end. -/
def eq (xs ys : List Float) : Bool :=
  let n := max xs.length ys.length
  (List.zipWith (· == ·) (pad n xs) (pad n ys)).all id

/-- The cross product of vectors with three entries. -/
def cross : List Float → List Float → Outcome (List Float)
  | [a, b, c], [x, y, z] => .ok [b * z - c * y, c * x - a * z, a * y - b * x]
  | _, _ => .error (.error .crossNotThreeDimensional)

/-- Eight running sums, one for each position modulo eight, of the full blocks of eight; and the entries
that are left. -/
def eightSums : List Float → List Float → List Float × List Float
  | sums, a :: b :: c :: d :: e :: f :: g :: h :: rest =>
    eightSums (List.zipWith (· + ·) sums [a, b, c, d, e, f, g, h]) rest
  | sums, rest => (sums, rest)

/-- The sum of at most one hundred and twenty-eight entries. -/
def blockSum (xs : List Float) : Float :=
  match eightSums (xs.take 8) (xs.drop 8) with
  | ([a, b, c, d, e, f, g, h], rest) =>
    rest.foldl (· + ·) (((a + b) + (c + d)) + ((e + f) + (g + h)))
  | (few, _) => few.foldl (· + ·) 0.0

/-- The sum of the entries. Long vectors are halved at a multiple of eight, which keeps the rounding
error small; `fuel` bounds the halvings. -/
def pairwiseSum : Nat → List Float → Float
  | 0, xs => blockSum xs
  | fuel + 1, xs =>
    if xs.length ≤ 128 then blockSum xs
    else
      let half := xs.length / 2 / 8 * 8
      pairwiseSum fuel (xs.take half) + pairwiseSum fuel (xs.drop half)

/-- The sum of the entries. -/
def sum (xs : List Float) : Float := 0.0 + pairwiseSum xs.length xs

/-- The product of the entries. -/
def product (xs : List Float) : Float := xs.foldl (· * ·) 1.0

/-- Each entry rounded to decimal places. -/
def roundPlaces (xs : List Float) (p : Places) : Except Fault (List Float) :=
  xs.mapM fun x => Number.roundPlacesReal x p

/-- Each entry rounded to significant figures. -/
def roundFigures (xs : List Float) (p : Places) : Except Fault (List Float) :=
  xs.mapM fun x => Number.roundFiguresReal x p

end Entries

/-! ## Matrices -/

/-- A matrix, by its rows, which all have `columns` entries. -/
structure Matrix where
  rows : List (List Float)
  columns : Nat
  deriving DecidableEq

namespace Matrix

/-- The number of rows. -/
def height (m : Matrix) : Nat := m.rows.length

/-- All entries, row by row. -/
def entries (m : Matrix) : List Float := m.rows.flatten

/-- The matrix with rows of any widths, the shorter ones filled up with zeros. -/
def ofRows (rows : List (List Float)) : Matrix :=
  let width := (rows.map List.length).foldl max 0
  ⟨rows.map (Entries.pad width), width⟩

/-- A single row. -/
def ofRow (xs : List Float) : Matrix := ⟨[xs], xs.length⟩

/-- The matrix filled up with zeros to a height and a width. -/
def pad (height width : Nat) (m : Matrix) : Matrix :=
  let rows := m.rows.map (Entries.pad width)
  ⟨rows ++ List.replicate (height - rows.length) (List.replicate width 0.0), width⟩

/-- The values of `f` on the entries of two matrices, filled up to a common size. -/
def zipPadded (f : Float → Float → Float) (a b : Matrix) : Matrix :=
  let height := max a.height b.height
  let width := max a.columns b.columns
  ⟨List.zipWith (List.zipWith f) (a.pad height width).rows (b.pad height width).rows, width⟩

/-- The values of `f` on the entries. -/
def map (f : Float → Float) (m : Matrix) : Matrix :=
  ⟨m.rows.map (List.map f), m.columns⟩

def add : Matrix → Matrix → Matrix := zipPadded (· + ·)
def sub : Matrix → Matrix → Matrix := zipPadded (· - ·)
def neg : Matrix → Matrix := map (- ·)
def scale (k : Float) : Matrix → Matrix := map (k * ·)

/-- The entries of column `j`. -/
def column (m : Matrix) (j : Nat) : List Float := m.rows.map fun row => row.getD j 0.0

/-- Rows and columns exchanged. -/
def transpose (m : Matrix) : Matrix :=
  ⟨(List.range m.columns).map m.column, m.height⟩

/-- The product of a row vector with a matrix, whose height is the number of entries. -/
def rowTimes (xs : List Float) (m : Matrix) : List Float :=
  (List.range m.columns).map fun j => Entries.dot xs (m.column j)

/-- The product of matrices of matching sizes. -/
def times (a b : Matrix) : Matrix :=
  ⟨a.rows.map fun row => rowTimes row b, b.columns⟩

/-- The product. -/
def mul (a b : Matrix) : Outcome Matrix :=
  if a.columns = b.height then .ok (a.times b) else .error (.error .productSizes)

/-- The product with a column vector. -/
def mulEntries (m : Matrix) (xs : List Float) : Outcome (List Float) :=
  if m.columns = xs.length then .ok (m.rows.map fun row => Entries.dot row xs)
  else .error (.error .productSizes)

/-- The product of a row vector with a matrix. -/
def entriesMul (xs : List Float) (m : Matrix) : Outcome (List Float) :=
  if xs.length = m.height then .ok (rowTimes xs m) else .error (.error .productSizes)

/-- The unit matrix. -/
def identity (n : Nat) : Matrix :=
  ⟨(List.range n).map fun i => (List.range n).map fun j => if i = j then 1.0 else 0.0, n⟩

/-- `acc` (nothing at first) times the power of `base` with exponent `n`, by repeated squaring. -/
def powFrom (acc : Option Matrix) (base : Matrix) (n : Nat) : Option Matrix :=
  if n = 0 then acc
  else
    let acc := if n % 2 = 1 then some (match acc with | none => base | some m => m.times base) else acc
    powFrom acc (base.times base) (n / 2)
termination_by n

/-- The power of a square matrix. The third power is the square times the matrix. -/
def powNat (m : Matrix) (n : Nat) : Matrix :=
  if n = 3 then (m.times m).times m else (powFrom none m n).getD (identity m.height)

/-- Equality of size and entries. -/
def eq (a b : Matrix) : Bool :=
  a.height == b.height && a.columns == b.columns &&
    (List.zipWith (· == ·) a.entries b.entries).all id

/-- The determinant, from the cofactor formulas, so that integer matrices have integer results. -/
def determinant (m : Matrix) : Outcome Float :=
  if m.height ≠ m.columns then .error (.error .determinantNotSquare)
  else
    match m.rows with
    | [[a]] => .ok a
    | [[a, b], [c, d]] => .ok (a * d - b * c)
    | [[a, b, c], [d, e, f], [g, h, i]] =>
      .ok (a * (e * i - f * h) - b * (d * i - f * g) + c * (d * h - e * g))
    | _ => .error (.error .determinantTooBig)

/-- The entries of a matrix with one row or one column. -/
def vector? (m : Matrix) : Option (List Float) :=
  if m.height = 1 ∨ m.columns = 1 then some m.entries else none

/-- The value of a function that can break down on each entry. -/
def mapM (f : Float → Except Fault Float) (m : Matrix) : Except Fault Matrix :=
  return ⟨← m.rows.mapM (List.mapM f), m.columns⟩

end Matrix

/-- What an inner or cross product takes: a vector, or a matrix, which may be a single row or
column. -/
inductive Factor where
  | vector (entries : List Float)
  | matrix (m : Matrix)

namespace Factor

/-- The entries of a vector, or of a matrix that is a single row or column. -/
def vector? : Factor → Option (List Float)
  | vector xs => some xs
  | matrix m => m.vector?

/-- The length of a vector, the height of a matrix. -/
def length : Factor → Nat
  | vector xs => xs.length
  | matrix m => m.height

/-- The inner product of two vectors. A matrix that is no vector has no inner product that is a number:
if it cannot even be multiplied after filling up with zeros, the sizes are at fault. -/
def dot (a b : Factor) : Except Fault Float :=
  match a.vector?, b.vector? with
  | some xs, some ys =>
    let n := max xs.length ys.length
    .ok (Entries.dot (Entries.pad n xs) (Entries.pad n ys))
  | none, _ =>
    match a with
    | matrix m => if m.columns = m.height then .error .unsuitable else .error .outsideDomain
    | vector _ => .error .unsuitable
  | some _, none => .error .unsuitable

/-- The cross product of two vectors. -/
def cross (a b : Factor) : Outcome (List Float) :=
  match a.vector?, b.vector? with
  | some xs, some ys => Entries.cross xs ys
  | _, _ => .error (.error .crossNotThreeDimensional)

end Factor

end MathExpr
