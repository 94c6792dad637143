import MathExpr.Proofs.Interpretation
import Mathlib.Algebra.BigOperators.Group.List.Basic
import Mathlib.Algebra.Order.BigOperators.GroupWithZero.List
import Mathlib.Algebra.Order.Ring.Int
import Mathlib.Data.List.Sort
import Mathlib.Tactic.Ring

/-!
# Polynomials

Polynomials in any number of names, with integer coefficients, as lists of monomials. A
polynomial *vanishes* if all coefficients are zero once the like monomials are collected;
then its value is zero, whatever the names stand for (`Poly.eval_of_vanishes`). So two
expressions are shown to be equal for all values of their names by computing the
polynomial that is their difference.
-/

namespace MathExpr

/-- A product of names. -/
abbrev Monomial := List String

/-- A sum of monomials with coefficients. -/
abbrev Poly := List (Monomial × Int)

namespace Poly

variable (σ : String → Int)

/-- The value of a product of names. -/
def monomial (m : Monomial) : Int := (m.map σ).prod

/-- The value of a polynomial. -/
def eval (p : Poly) : Int := (p.map fun t => t.2 * monomial σ t.1).sum

@[simp]
theorem eval_nil : eval σ [] = 0 := rfl

@[simp]
theorem eval_cons (t : Monomial × Int) (p : Poly) :
    eval σ (t :: p) = t.2 * monomial σ t.1 + eval σ p := by
  simp [eval]

theorem eval_append (p q : Poly) : eval σ (p ++ q) = eval σ p + eval σ q := by
  simp [eval]

/-! ### Arithmetic -/

/-- An integer. -/
def const (n : Int) : Poly := [([], n)]

theorem eval_const (n : Int) : eval σ (const n) = n := by
  simp [const, monomial]

/-- A name. -/
def var (key : String) : Poly := [([key], 1)]

theorem eval_var (key : String) : eval σ (var key) = σ key := by
  simp [var, monomial]

/-- The polynomial with each coefficient multiplied. -/
def scale (n : Int) (p : Poly) : Poly := p.map fun t => (t.1, n * t.2)

theorem eval_scale (n : Int) (p : Poly) : eval σ (scale n p) = n * eval σ p := by
  induction p with
  | nil => simp [scale]
  | cons t p ih =>
      rw [scale, List.map_cons, eval_cons, eval_cons]
      show n * t.2 * monomial σ t.1 + eval σ (scale n p) = _
      rw [ih]
      ring

/-- The product of two monomials, with the names in order. -/
def mulMonomial (m k : Monomial) : Monomial := (m ++ k).insertionSort (· ≤ ·)

theorem monomial_mulMonomial (m k : Monomial) :
    monomial σ (mulMonomial m k) = monomial σ m * monomial σ k := by
  unfold monomial mulMonomial
  rw [((List.perm_insertionSort _ _).map σ).prod_eq, List.map_append, List.prod_append]

/-- The polynomial with each monomial multiplied by another. -/
def mulTerm (t : Monomial × Int) (p : Poly) : Poly :=
  p.map fun u => (mulMonomial t.1 u.1, t.2 * u.2)

theorem eval_mulTerm (t : Monomial × Int) (p : Poly) :
    eval σ (mulTerm t p) = t.2 * monomial σ t.1 * eval σ p := by
  induction p with
  | nil => simp [mulTerm]
  | cons u p ih =>
      rw [mulTerm, List.map_cons, eval_cons, eval_cons]
      show t.2 * u.2 * monomial σ (mulMonomial t.1 u.1) + eval σ (mulTerm t p) = _
      rw [ih, monomial_mulMonomial]
      ring

/-- The product of two polynomials. -/
def mul (p q : Poly) : Poly := p.flatMap fun t => mulTerm t q

theorem eval_mul (p q : Poly) : eval σ (mul p q) = eval σ p * eval σ q := by
  induction p with
  | nil => simp [mul]
  | cons t p ih =>
      rw [mul, List.flatMap_cons, eval_append, eval_mulTerm, eval_cons]
      show _ + eval σ (mul p q) = _
      rw [ih]
      ring

/-! ### Vanishing -/

/-- The polynomial with one more monomial, added to its like. -/
def insert (t : Monomial × Int) : Poly → Poly
  | [] => [t]
  | u :: p => if t.1 = u.1 then (u.1, t.2 + u.2) :: p else u :: insert t p

theorem eval_insert (t : Monomial × Int) (p : Poly) :
    eval σ (insert t p) = t.2 * monomial σ t.1 + eval σ p := by
  induction p with
  | nil => rfl
  | cons u p ih =>
      unfold insert
      split
      · rename_i heq
        rw [eval_cons, eval_cons, heq]
        ring
      · rw [eval_cons, eval_cons, ih]
        ring

/-- The polynomial with like monomials collected. -/
def collect (p : Poly) : Poly := p.foldr insert []

theorem eval_collect (p : Poly) : eval σ (collect p) = eval σ p := by
  induction p with
  | nil => rfl
  | cons t p ih =>
      show eval σ (insert t (collect p)) = _
      rw [eval_insert, ih, eval_cons]

/-- Whether all coefficients of a polynomial are zero. -/
def vanishes (p : Poly) : Bool := (collect p).all fun t => t.2 == 0

/-- A polynomial that vanishes is zero everywhere. -/
theorem eval_of_vanishes {p : Poly} (h : vanishes p = true) : eval σ p = 0 := by
  rw [← eval_collect]
  unfold vanishes at h
  generalize collect p = q at h
  induction q with
  | nil => rfl
  | cons t q ih =>
      rw [List.all_cons, Bool.and_eq_true, beq_iff_eq] at h
      rw [eval_cons, h.1, ih h.2]
      ring

/-- Whether two polynomials are equal. -/
def same (p q : Poly) : Bool := vanishes (p ++ scale (-1) q)

theorem eval_eq_of_same {p q : Poly} (h : same p q = true) : eval σ p = eval σ q := by
  have hzero := eval_of_vanishes σ h
  rw [eval_append, eval_scale] at hzero
  omega

/-! ### Comparing -/

/-- A product of names that are not negative is not negative. -/
theorem monomial_nonneg (hσ : ∀ key, 0 ≤ σ key) (m : Monomial) : 0 ≤ monomial σ m := by
  refine List.prod_nonneg fun n hn => ?_
  obtain ⟨key, -, rfl⟩ := List.mem_map.1 hn
  exact hσ key

/-- Whether no coefficient of a polynomial is negative. -/
def nonneg (p : Poly) : Bool := (collect p).all fun t => 0 ≤ t.2

theorem eval_of_nonneg {p : Poly} (h : nonneg p = true) (hσ : ∀ key, 0 ≤ σ key) :
    0 ≤ eval σ p := by
  rw [← eval_collect]
  unfold nonneg at h
  generalize collect p = q at h
  induction q with
  | nil => exact le_refl 0
  | cons t q ih =>
      rw [List.all_cons, Bool.and_eq_true, decide_eq_true_eq] at h
      rw [eval_cons]
      have hterm := mul_nonneg h.1 (monomial_nonneg σ hσ t.1)
      have hrest := ih h.2
      omega

/-- Whether no coefficient of a polynomial is larger than that of another. -/
def atMost (p q : Poly) : Bool := nonneg (q ++ scale (-1) p)

theorem eval_le_of_atMost {p q : Poly} (h : atMost p q = true) (hσ : ∀ key, 0 ≤ σ key) :
    eval σ p ≤ eval σ q := by
  have hdiff := eval_of_nonneg σ h hσ
  rw [eval_append, eval_scale] at hdiff
  omega

end Poly

/-! ### Interpretations -/

namespace Interpretation

/-- Numbers that are integers stand for themselves, and names for what they are assigned. -/
def integers (ρ : String → Int) : Interpretation Int where
  number := Number.int?
  name key := some (ρ key)
  add := (· + ·)
  sub := (· - ·)
  mul := (· * ·)
  neg := (- ·)

/-- Names stand for themselves. -/
def polynomials : Interpretation Poly where
  number n := n.int?.map Poly.const
  name key := some (Poly.var key)
  add p q := p ++ q
  sub p q := p ++ Poly.scale (-1) q
  mul := Poly.mul
  neg := Poly.scale (-1)

/-- A polynomial is an integer once its names are assigned integers. -/
theorem leads_polynomials (σ : String → Int) : Leads (Poly.eval σ) polynomials (integers σ) where
  number n := by
    show n.int? = (n.int?.map Poly.const).map (Poly.eval σ)
    cases n.int? with
    | none => rfl
    | some k => exact congrArg some (Poly.eval_const σ k).symm
  name key := congrArg some (Poly.eval_var σ key).symm
  add p q := Poly.eval_append σ p q
  sub p q := by
    show Poly.eval σ (p ++ Poly.scale (-1) q) = Poly.eval σ p - Poly.eval σ q
    rw [Poly.eval_append, Poly.eval_scale]
    ring
  mul p q := Poly.eval_mul σ p q
  neg p := by
    show Poly.eval σ (Poly.scale (-1) p) = -Poly.eval σ p
    rw [Poly.eval_scale]
    ring

end Interpretation

end MathExpr
