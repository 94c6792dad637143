import MathExpr.Number.Fraction
import Mathlib.Data.Rat.Floor
import Mathlib.Tactic.FieldSimp
import Mathlib.Tactic.Linarith

/-!
# Continued fractions in exact arithmetic

In exact arithmetic the approximation of a number is a reduced fraction that is as close as is asked for, unless
the terms run out (`FractionArithmetic.exists_approximate_rational`).

What is left to expand is kept together with the terms so far: put at their end it is the number itself
(`valueFrom`), and it is at least one, so that nothing is divided by zero. The estimate that the expansion
compares and the fraction that is returned are calculated apart, but they are the same number: one step of the
recurrence takes numerator and denominator of `x` to those of `term + 1 / x` (`num_addInverse`,
`den_addInverse`), so that the recurrence never leaves the reduced form (`foldl_fraction`).
-/

namespace MathExpr.FractionArithmetic

/-- Exact arithmetic, with a tolerance. -/
def rational (tolerance : Rat) : FractionArithmetic Rat where
  floor x := .ok ⌊x⌋
  ofInt := Int.cast
  sub := (· - ·)
  addInverse term x := term + 1 / x
  inverse x := 1 / x
  isZero x := decide (x = 0)
  close x y := !decide (|x - y| > tolerance)

variable {tolerance : Rat}

theorem close_rational_iff {x y : Rat} : (rational tolerance).close x y = true ↔ |x - y| ≤ tolerance := by
  simp [rational]

/-- Nothing is left exactly of an integer. -/
theorem isZero_rational_iff {n : Rat} :
    (rational tolerance).isZero ((rational tolerance).sub n ((rational tolerance).ofInt ⌊n⌋)) = true ↔
      n - ⌊n⌋ = 0 :=
  decide_eq_true_iff

/-! ### The value of a continued fraction -/

/-- The value of a continued fraction that ends in `x`, given the terms before it from the last to the first. -/
def valueFrom (x : Rat) (terms : List Int) : Rat :=
  terms.foldl (fun value (term : Int) => term + 1 / value) x

@[simp]
theorem valueFrom_nil (x : Rat) : valueFrom x [] = x := rfl

@[simp]
theorem valueFrom_cons (x : Rat) (term : Int) (terms : List Int) :
    valueFrom x (term :: terms) = valueFrom (term + 1 / x) terms := rfl

/-- The estimate of `n` that some terms give; before the first term it is the integer below. -/
def convergent (n : Rat) : List Int → Rat
  | [] => ⌊n⌋
  | last :: terms => valueFrom last terms

/-- All terms but the first, which is the last of the list, are positive. -/
def Regular (terms : List Int) : Prop :=
  ∀ term ∈ terms.dropLast, 1 ≤ term

theorem regular_nil : Regular [] := by simp [Regular]

theorem Regular.cons {term : Int} {terms : List Int} (hterms : Regular terms)
    (hterm : terms ≠ [] → 1 ≤ term) : Regular (term :: terms) := by
  intro t ht
  cases terms with
  | nil => simp at ht
  | cons next terms =>
      rcases List.mem_cons.1 ht with rfl | ht
      · exact hterm (List.cons_ne_nil next terms)
      · exact hterms t ht

theorem Regular.tail {term : Int} {terms : List Int} (h : Regular (term :: terms)) : Regular terms := by
  intro t ht
  cases terms with
  | nil => simp at ht
  | cons next terms => exact h t (List.mem_cons_of_mem term ht)

theorem Regular.head {term : Int} {terms : List Int} (h : Regular (term :: terms)) (hterms : terms ≠ []) :
    1 ≤ term := by
  obtain ⟨next, terms, rfl⟩ := List.exists_cons_of_ne_nil hterms
  exact h term List.mem_cons_self

/-! ### Numerators and denominators -/

/-- The sum of an integer and an inverse, as a quotient in lowest terms. -/
theorem addInverse_eq {x : Rat} (hx : 0 < x) (term : Int) :
    term + 1 / x = ((term * x.num + x.den : Int) : Rat) / (x.num : Int) ∧
      Nat.Coprime (term * x.num + x.den).natAbs x.num.natAbs := by
  have hnum : (x.num : Rat) ≠ 0 := by exact_mod_cast (Rat.num_pos.2 hx).ne'
  constructor
  · nth_rewrite 1 [← Rat.num_div_den x]
    rw [one_div_div]
    push_cast
    field_simp
  · have hgcd : Int.gcd (term * x.num + x.den) x.num = Int.gcd x.den x.num := by simp
    rw [Nat.coprime_iff_gcd_eq_one, ← Int.gcd_eq_natAbs_gcd_natAbs, hgcd, Int.gcd_comm]
    exact x.reduced

theorem num_addInverse {x : Rat} (hx : 0 < x) (term : Int) :
    (term + 1 / x).num = term * x.num + x.den := by
  obtain ⟨heq, hcoprime⟩ := addInverse_eq hx term
  rw [heq, Rat.num_div_eq_of_coprime (Rat.num_pos.2 hx) hcoprime]

theorem den_addInverse {x : Rat} (hx : 0 < x) (term : Int) : ((term + 1 / x).den : Int) = x.num := by
  obtain ⟨heq, hcoprime⟩ := addInverse_eq hx term
  rw [heq, Rat.den_div_eq_of_coprime (Rat.num_pos.2 hx) hcoprime]

/-- The recurrence keeps the reduced form of the value. -/
theorem foldl_fraction {terms : List Int} (hterms : Regular terms) {x : Rat} (hx : terms ≠ [] → 0 < x) :
    terms.foldl (fun (numerator, denominator) term => (term * numerator + denominator, numerator))
        (x.num, (x.den : Int)) = ((valueFrom x terms).num, ((valueFrom x terms).den : Int)) := by
  induction terms generalizing x with
  | nil => rfl
  | cons term terms ih =>
      have hpos : 0 < x := hx (List.cons_ne_nil term terms)
      have hnext : terms ≠ [] → 0 < (term : Rat) + 1 / x := by
        intro hne
        have : (1 : Rat) ≤ term := by exact_mod_cast hterms.head hne
        positivity
      rw [List.foldl_cons, valueFrom_cons]
      dsimp only
      rw [← num_addInverse hpos, ← den_addInverse hpos term]
      exact ih hterms.tail hnext

/-- The fraction that is returned is the estimate in lowest terms. -/
theorem fraction_eq (n : Rat) {terms : List Int} (hterms : Regular terms) (hne : terms ≠ []) :
    fraction terms = ((convergent n terms).num, ((convergent n terms).den : Int)) := by
  obtain ⟨last, terms, rfl⟩ := List.exists_cons_of_ne_nil hne
  have hlast : terms ≠ [] → 0 < (last : Rat) := by
    intro hne
    exact_mod_cast hterms.head hne
  simpa [fraction, convergent] using foldl_fraction hterms.tail hlast

/-! ### The expansion -/

/-- The inverse of what is above the integer below a number is at least one. -/
theorem one_le_inverse_fract {n : Rat} (h : n - ⌊n⌋ ≠ 0) : 1 ≤ 1 / (n - ⌊n⌋) := by
  have hnonneg : 0 ≤ n - ⌊n⌋ := Int.fract_nonneg n
  have hlt : n - ⌊n⌋ < 1 := Int.fract_lt_one n
  exact one_le_one_div (lt_of_le_of_ne hnonneg h.symm) hlt.le

/-- One step of the expansion. -/
theorem expand_rational_succ (target n : Rat) (terms : List Int) (room : Nat) :
    (rational tolerance).expand target (room + 1) terms (convergent target terms) n =
      if |target - convergent target terms| ≤ tolerance then .ok terms
      else if n - ⌊n⌋ = 0 then .ok (⌊n⌋ :: terms)
      else (rational tolerance).expand target room (⌊n⌋ :: terms) (convergent target (⌊n⌋ :: terms))
        (1 / (n - ⌊n⌋)) := by
  rw [expand]
  by_cases hclose : |target - convergent target terms| ≤ tolerance
  · rw [if_pos hclose, if_pos (close_rational_iff.2 hclose)]
  · rw [if_neg hclose, if_neg (mt close_rational_iff.1 hclose)]
    by_cases hrest : n - ⌊n⌋ = 0
    · rw [if_pos hrest]
      exact if_pos (isZero_rational_iff.2 hrest)
    · rw [if_neg hrest]
      exact if_neg (mt isZero_rational_iff.1 hrest)

/-- The expansion ends, with terms that are close enough or have used all room. What is left to expand is the
number itself once it is put at the end of the terms so far. -/
theorem expand_rational (htolerance : 0 ≤ tolerance) {target n : Rat} {terms : List Int} (room : Nat)
    (hterms : Regular terms) (hn : terms ≠ [] → 1 ≤ n) (htarget : valueFrom n terms = target) :
    ∃ result, (rational tolerance).expand target room terms (convergent target terms) n = .ok result ∧
      Regular result ∧
      (|target - convergent target result| ≤ tolerance ∨ result.length = terms.length + room) := by
  induction room generalizing n terms with
  | zero => exact ⟨terms, rfl, hterms, .inr rfl⟩
  | succ room ih =>
      have hfloor : terms ≠ [] → 1 ≤ ⌊n⌋ := fun hne => Int.le_floor.2 (by exact_mod_cast hn hne)
      rw [expand_rational_succ]
      split_ifs with hclose hrest
      · exact ⟨terms, rfl, hterms, .inl hclose⟩
      · -- an integer is left, and the estimate is exact
        have hexact : convergent target (⌊n⌋ :: terms) = target := by
          rw [convergent, ← sub_eq_zero.1 hrest, htarget]
        refine ⟨⌊n⌋ :: terms, rfl, hterms.cons hfloor, .inl ?_⟩
        rw [hexact, sub_self, abs_zero]
        exact htolerance
      · have hvalue : valueFrom (1 / (n - ⌊n⌋)) (⌊n⌋ :: terms) = target := by
          rw [valueFrom_cons, one_div_one_div, add_sub_cancel, htarget]
        obtain ⟨result, hresult, hregular, hspec⟩ :=
          ih (hterms.cons hfloor) (fun _ => one_le_inverse_fract hrest) hvalue
        rw [List.length_cons, Nat.succ_add_eq_add_succ] at hspec
        exact ⟨result, hresult, hregular, hspec⟩

/-- What is returned is the convergent of the expansion in lowest terms, unless the number is an integer. -/
theorem approximate_rational {n : Rat} (hn : n - ⌊n⌋ ≠ 0) {terms : List Int} (hterms : Regular terms)
    (hexpand : (rational tolerance).expand n 64 [] ⌊n⌋ n = .ok terms) :
    (rational tolerance).approximate n =
      .ok ((convergent n terms).num, ((convergent n terms).den : Int)) := by
  refine (if_neg (mt isZero_rational_iff.1 hn)).trans ?_
  show ((rational tolerance).expand n 64 [] ⌊n⌋ n >>= _) = _
  rw [hexpand]
  cases terms with
  | nil => simp [convergent, bind, Except.bind, pure, Except.pure]
  | cons last terms => exact congrArg Except.ok (fraction_eq n hterms (List.cons_ne_nil last terms))

/-- The approximation of a number is a reduced fraction within the tolerance, unless all terms are used. -/
theorem exists_approximate_rational (n : Rat) (htolerance : 0 < tolerance) :
    ∃ p q : Int, (rational tolerance).approximate n = .ok (p, q) ∧ 1 ≤ q ∧ Int.gcd p q = 1 ∧
      (|n - p / q| ≤ tolerance ∨
        ∃ terms, (rational tolerance).expand n 64 [] ⌊n⌋ n = .ok terms ∧ terms.length = 64 ∧
          fraction terms = (p, q)) := by
  by_cases hn : n - ⌊n⌋ = 0
  · refine ⟨⌊n⌋, 1, if_pos (isZero_rational_iff.2 hn), le_refl 1, Int.gcd_one_right _, .inl ?_⟩
    rw [Int.cast_one, div_one, hn, abs_zero]
    exact htolerance.le
  obtain ⟨terms, hexpand, hregular, hspec⟩ :=
    expand_rational htolerance.le 64 regular_nil (absurd rfl) (valueFrom_nil n)
  refine ⟨_, _, approximate_rational hn hregular hexpand, ?_, (convergent n terms).reduced, ?_⟩
  · exact_mod_cast (convergent n terms).pos
  · rcases hspec with hclose | hlength
    · left
      rwa [Int.cast_natCast, Rat.num_div_den]
    · refine .inr ⟨terms, hexpand, hlength, fraction_eq n hregular ?_⟩
      rintro rfl
      simp at hlength

/-- Half of minus five within a tenth. -/
theorem exists_approximate_rational_half :
    (0 : Rat) < 1 / 10 ∧ ∃ p q : Int, (rational (1 / 10)).approximate (-5 / 2) = .ok (p, q) ∧ 1 ≤ q ∧
      Int.gcd p q = 1 ∧
      (|(-5 / 2 : Rat) - p / q| ≤ 1 / 10 ∨
        ∃ terms, (rational (1 / 10)).expand (-5 / 2) 64 [] ⌊(-5 / 2 : Rat)⌋ (-5 / 2) = .ok terms ∧
          terms.length = 64 ∧ fraction terms = (p, q)) :=
  have htolerance : (0 : Rat) < 1 / 10 := by norm_num
  ⟨htolerance, exists_approximate_rational (-5 / 2) htolerance⟩

example : (rational (1 / 10)).approximate (-5 / 2) = .ok (-5, 2) := by decide +kernel

end MathExpr.FractionArithmetic
