import MathExpr.Proofs.Quotients

/-!
# Relative errors

A number that is rounded to nearest is off by no more than a part in `2 ^ 53` (`Real.RoundsTo.near_of_le`), and not at
all if it is a short significand times a power of two (`Real.RoundsTo.eq_mul_two_pow`). Errors of this kind are
counted: how often `2 ^ -53` of a number is lost or gained at most (`Real.Near`). The count of a product or of a
quotient is the sum of the counts, and one more for its own rounding (`Real.IsNear.mul`, `Real.IsNear.div`).
-/

namespace MathExpr.Real

open Float.Model (Format UnpackedFloat)
open Float.Model.UnpackedFloat (roundWithAccuracy)

/-! ### Numbers that are nearly the same -/

/-- What is left of a number at least that is rounded. -/
def roundingFactor : Rat := 1 - 1 / 2 ^ 53

theorem roundingFactor_pos : 0 < roundingFactor := by norm_num [roundingFactor]

theorem roundingFactor_le_one : roundingFactor ≤ 1 := by norm_num [roundingFactor]

/-- Two numbers of which each is left at least of the other when it is rounded `k` times. -/
def Near (k : Nat) (p q : Rat) : Prop :=
  q * roundingFactor ^ k ≤ p ∧ p * roundingFactor ^ k ≤ q

variable {j k : Nat} {p q p' q' r : Rat}

theorem Near.trans (hpq : Near j p q) (hqr : Near k q r) : Near (j + k) p r := by
  have hj := pow_pos roundingFactor_pos j
  have hk := pow_pos roundingFactor_pos k
  constructor
  · calc r * roundingFactor ^ (j + k) = r * roundingFactor ^ k * roundingFactor ^ j := by ring
      _ ≤ q * roundingFactor ^ j := mul_le_mul_of_nonneg_right hqr.1 hj.le
      _ ≤ p := hpq.1
  · calc p * roundingFactor ^ (j + k) = p * roundingFactor ^ j * roundingFactor ^ k := by ring
      _ ≤ q * roundingFactor ^ k := mul_le_mul_of_nonneg_right hpq.2 hk.le
      _ ≤ r := hqr.2

theorem Near.pos (h : Near k p q) (hq : 0 < q) : 0 < p :=
  (mul_pos hq (pow_pos roundingFactor_pos k)).trans_le h.1

theorem Near.mul (h : Near j p q) (h' : Near k p' q') (hq : 0 < q) (hq' : 0 < q') :
    Near (j + k) (p * p') (q * q') := by
  have hj := pow_pos roundingFactor_pos j
  have hk := pow_pos roundingFactor_pos k
  have hp := h.pos hq
  have hp' := h'.pos hq'
  constructor
  · calc q * q' * roundingFactor ^ (j + k) = q * roundingFactor ^ j * (q' * roundingFactor ^ k) := by ring
      _ ≤ p * p' := mul_le_mul h.1 h'.1 (mul_pos hq' hk).le hp.le
  · calc p * p' * roundingFactor ^ (j + k) = p * roundingFactor ^ j * (p' * roundingFactor ^ k) := by ring
      _ ≤ q * q' := mul_le_mul h.2 h'.2 (mul_pos hp' hk).le hq.le

theorem Near.inv (h : Near k p q) (hq : 0 < q) : Near k p⁻¹ q⁻¹ := by
  have hp := h.pos hq
  constructor
  · rw [inv_mul_le_iff₀ hq, ← div_eq_mul_inv, le_div_iff₀ hp, mul_comm]
    exact h.2
  · rw [inv_mul_le_iff₀ hp, ← div_eq_mul_inv, le_div_iff₀ hq, mul_comm]
    exact h.1

theorem Near.div (h : Near j p q) (h' : Near k p' q') (hq : 0 < q) (hq' : 0 < q') :
    Near (j + k) (p / p') (q / q') := by
  rw [div_eq_mul_inv, div_eq_mul_inv]
  exact h.mul (h'.inv hq') hq (inv_pos.2 hq')

/-- Five times rounded, a number is off by less than eight times as much as once. -/
theorem Near.abs_sub_le (h : Near k p q) (hk : k ≤ 5) (hq : 0 < q) : |p - q| ≤ q / 2 ^ 50 := by
  have hpow : roundingFactor ^ 5 ≤ roundingFactor ^ k :=
    pow_le_pow_of_le_one roundingFactor_pos.le roundingFactor_le_one hk
  have hlower : q * roundingFactor ^ 5 ≤ p := (mul_le_mul_of_nonneg_left hpow hq.le).trans h.1
  have hupper : p * roundingFactor ^ 5 ≤ q := (mul_le_mul_of_nonneg_left hpow (h.pos hq).le).trans h.2
  have hfive : 1 - 1 / 2 ^ 51 - 1 / 2 ^ 53 ≤ roundingFactor ^ 5 := by norm_num [roundingFactor]
  have hlower' := (mul_le_mul_of_nonneg_left hfive hq.le).trans hlower
  have hupper' := (mul_le_mul_of_nonneg_left hfive (h.pos hq).le).trans hupper
  rw [abs_le]
  constructor <;> linarith

/-! ### Rounding once -/

/-- A number that is not too small is rounded by a part in `2 ^ 53` at most. -/
theorem RoundsTo.near_of_le {t : Int} {x : Rat} {R : Nat} (h : RoundsTo t x R) (hx : 2 ^ (-1022 : Int) ≤ x) :
    Near 1 (R * 2 ^ t) x := by
  have hhalf : (2 : Rat) ^ (t - 1) ≤ x / 2 ^ 53 := by
    rw [le_div_iff₀ (by positivity)]
    calc (2 : Rat) ^ (t - 1) * 2 ^ 53 = 2 ^ (t - 1) * 2 ^ (53 : Int) := rfl
      _ = 2 ^ (t + 52) := by
          rw [← zpow_add₀ two_ne_zero]
          congr 1
          omega
      _ ≤ x := by
          rcases h.lower with hlower | rfl
          · exact hlower
          · exact hx
  obtain ⟨hbelow, habove⟩ := abs_le.1 (h.near.trans hhalf)
  have hx0 : 0 < x := (two_zpow_pos (-1022)).trans_le hx
  unfold Near roundingFactor
  rw [pow_one]
  constructor <;> linarith

/-- A significand that is not too long, times a power of two, needs no rounding. -/
theorem RoundsTo.eq_mul_two_pow {t : Int} {R M a : Nat} (h : RoundsTo t ((M * 2 ^ a : Nat) : Rat) R)
    (hM : M < 2 ^ 53) : (R : Rat) * 2 ^ t = (M * 2 ^ a : Nat) := by
  have hvalue : ((M * 2 ^ a : Nat) : Rat) = M * 2 ^ (a : Int) := by
    rw [zpow_natCast]
    push_cast
    rfl
  rw [hvalue] at h ⊢
  have hsize : (M : Rat) * 2 ^ (a : Int) < 2 ^ (53 + a : Int) := by
    rw [zpow_add₀ two_ne_zero]
    exact mul_lt_mul_of_pos_right (by exact_mod_cast hM) (two_zpow_pos a)
  have ht : t ≤ a := by
    have := h.exponent_lt hsize (by omega)
    omega
  exact le_antisymm (h.le_dyadic ht le_rfl) (h.dyadic_le ht le_rfl)

/-- A natural number is rounded as it is read. -/
theorem exists_roundsTo_ofNat {n : Nat} (hn : 0 < n) (hmax : (n : Rat) ≤ largest) :
    ∃ t R, RoundsTo t n R ∧ value? (Float.ofNat n).toModel.unpack = some ((R : Rat) * 2 ^ t) := by
  by_cases hsmall : n < 2 ^ 53
  · have hvalue : (n : Rat) * 2 ^ (0 : Int) = n := by rw [zpow_zero, mul_one]
    obtain ⟨t, R, hrounds, -⟩ := exists_roundsTo_round .positive hn (by rwa [hvalue])
    rw [hvalue] at hrounds
    refine ⟨t, R, hrounds, ?_⟩
    rw [hrounds.eq_natCast hsmall.le]
    exact int?_eq_some.1 (int?_ofNat hsmall.le)
  · have hread : (Float.ofNat n).toModel = Float.Model.pack
        (roundWithAccuracy Format.binary64 .positive (n * 2 ^ 53) (-53) .exact) := by
      unfold Float.ofNat
      show (Float.ofScientific n false 0).toModel = _
      unfold Float.ofScientific
      rw [dif_neg (fun h => hsmall h.1)]
      have hscientific : UnpackedFloat.ofScientific Format.binary64 n 0 =
          roundWithAccuracy Format.binary64 .positive (n * 2 ^ 53) (-53) .exact := by
        unfold UnpackedFloat.ofScientific
        rw [dif_neg hn.ne', if_neg (by decide), if_neg (not_lt_of_ge (neg_nonpos.2 (by positivity))),
          if_pos (le_refl 0), ← Nat.shiftLeft_eq]
        show roundWithAccuracy Format.binary64 .positive (n <<< 53 * 1) (-53 + 0) .exact = _
        rw [mul_one, add_zero]
      exact congrArg Float.Model.pack hscientific
    have hvalue : ((n * 2 ^ 53 : Nat) : Rat) * 2 ^ (-53 : Int) = n := by
      push_cast
      rw [mul_assoc]
      norm_num
    have hlong : 52 ≤ (n * 2 ^ 53).log2 := by
      rw [log2_mul_two_pow hn]
      omega
    have hrounds := exists_roundsTo_roundWithAccuracy .positive (.inl hlong) (locates_exact (n * 2 ^ 53))
      (by rwa [hvalue])
    rwa [hvalue, ← hread] at hrounds

/-! ### Numbers that are nearly others -/

/-- A number that is finite, and another number but for `k` times rounding. -/
def IsNear (k : Nat) (x : Float) (q : Rat) : Prop :=
  ∃ p, value? x.toModel.unpack = some p ∧ Near k p q

variable {x y : Float}

/-- Rounding once more. -/
theorem IsNear.of_roundsTo (hpq : Near k p q)
    (hx : ∃ t R, RoundsTo t p R ∧ value? x.toModel.unpack = some ((R : Rat) * 2 ^ t))
    (hp : 2 ^ (-1022 : Int) ≤ p) : IsNear (k + 1) x q := by
  obtain ⟨t, R, hrounds, hvalue⟩ := hx
  refine ⟨_, hvalue, ?_⟩
  rw [add_comm]
  exact (hrounds.near_of_le hp).trans hpq

/-- A number that is nearly another one of medium size is neither too large nor too small for being rounded. -/
theorem Near.bounds (h : Near k p q) (hk : k ≤ 5) (hlower : 1 ≤ q) (hupper : q ≤ 2 ^ 1022) :
    2 ^ (-1022 : Int) ≤ p ∧ p ≤ largest := by
  obtain ⟨hbelow, habove⟩ := abs_le.1 (h.abs_sub_le hk (zero_lt_one.trans_le hlower))
  constructor
  · calc (2 : Rat) ^ (-1022 : Int) ≤ 2 ^ (-1 : Int) := zpow_le_zpow_right₀ one_le_two (by decide)
      _ = 1 / 2 := by norm_num
      _ ≤ p := by linarith
  · refine le_largest ?_
    calc p ≤ q * 2 := by linarith
      _ ≤ 2 ^ 1022 * 2 := mul_le_mul_of_nonneg_right hupper two_pos.le
      _ = 2 ^ (1023 : Int) := (pow_succ (2 : Rat) 1022).symm

theorem isNear_ofNat {n : Nat} (hn : 0 < n) (hmax : (n : Rat) ≤ 2 ^ 1022) : IsNear 1 (Float.ofNat n) n := by
  have hself : Near 0 (n : Rat) n := by simp [Near]
  have hone : (1 : Rat) ≤ n := by exact_mod_cast hn
  obtain ⟨hlower, hupper⟩ := hself.bounds (by decide) hone hmax
  exact .of_roundsTo hself (exists_roundsTo_ofNat hn hupper) hlower

theorem IsNear.mul (hx : IsNear j x p) (hy : IsNear k y q) (hp : 0 < p) (hq : 0 < q) (hjk : j + k ≤ 5)
    (hlower : 1 ≤ p * q) (hupper : p * q ≤ 2 ^ 1022) : IsNear (j + k + 1) (x * y) (p * q) := by
  obtain ⟨p', hp', hpp'⟩ := hx
  obtain ⟨q', hq', hqq'⟩ := hy
  have hnear := hpp'.mul hqq' hp hq
  obtain ⟨hmin, hmax⟩ := hnear.bounds hjk hlower hupper
  exact .of_roundsTo hnear (exists_roundsTo_mul hp' hq' (hpp'.pos hp) (hqq'.pos hq) hmax) hmin

theorem IsNear.div (hx : IsNear j x p) (hy : IsNear k y q) (hp : 0 < p) (hq : 0 < q) (hjk : j + k ≤ 5)
    (hlower : 1 ≤ p / q) (hupper : p / q ≤ 2 ^ 1022) : IsNear (j + k + 1) (x / y) (p / q) := by
  obtain ⟨p', hp', hpp'⟩ := hx
  obtain ⟨q', hq', hqq'⟩ := hy
  have hnear := hpp'.div hqq' hp hq
  obtain ⟨hmin, hmax⟩ := hnear.bounds hjk hlower hupper
  exact .of_roundsTo hnear (exists_roundsTo_div_pos hp' hq' (hpp'.pos hp) (hqq'.pos hq) hmax) hmin

end MathExpr.Real
