import MathExpr.Proofs.ExactArithmetic
import Mathlib.Data.Rat.Floor

/-!
# Rounded arithmetic

A quotient, and a sum, difference or product of positive numbers, is the exact result rounded to nearest, unless
this is too large (`Real.exists_roundsTo_div`, `Real.exists_roundsTo_add`, `Real.exists_roundsTo_sub`,
`Real.exists_roundsTo_mul`). A quotient of integers never is (`Real.exists_roundsTo_div_int`). What programs ask
of such results, their order, their integer part downwards and whether they are negative, is that of the rational
numbers that they are.
-/

namespace MathExpr.Real

open Float.Model (Format UnpackedFloat)
open Float.Model.UnpackedFloat (Sign accuracyOfFraction roundWithAccuracy)

/-! ### Quotients -/

/-- A quotient has as many bits as a significand. -/
theorem log2_quotient {m m' k : Nat} (hm : 0 < m) (hm' : 0 < m') (hk : m'.log2 + 53 ≤ m.log2 + k) :
    52 ≤ (m * 2 ^ k / m').log2 := by
  have hlower : 2 ^ 52 ≤ m * 2 ^ k / m' := by
    rw [Nat.le_div_iff_mul_le hm']
    calc 2 ^ 52 * m' ≤ 2 ^ 52 * 2 ^ (m'.log2 + 1) := Nat.mul_le_mul_left _ Nat.lt_log2_self.le
      _ = 2 ^ (m'.log2 + 53) := by rw [← pow_add, show 52 + (m'.log2 + 1) = m'.log2 + 53 by omega]
      _ ≤ 2 ^ (m.log2 + k) := Nat.pow_le_pow_right two_pos hk
      _ = 2 ^ m.log2 * 2 ^ k := pow_add _ _ _
      _ ≤ m * 2 ^ k := Nat.mul_le_mul_right _ ((Nat.log2_eq_iff hm.ne').1 rfl).1
  exact (Nat.le_log2 (Nat.pos_of_ne_zero fun h => by omega).ne').2 hlower

/-- A quotient is rounded as the exact quotient. -/
theorem exists_roundsTo_div (s s' : Sign) {m m' : Nat} {e e' : Int} (hm : 0 < m) (hm' : 0 < m')
    (hmax : (m : Rat) * 2 ^ e / (m' * 2 ^ e') ≤ largest) :
    ∃ t R, RoundsTo t ((m : Rat) * 2 ^ e / (m' * 2 ^ e')) R ∧
      value? (Float.Model.pack
        (UnpackedFloat.div Format.binary64 (.finite s m e hm) (.finite s' m' e' hm'))).unpack =
        some (((s / s').apply R : Int) * (2 : Rat) ^ t) := by
  obtain ⟨E, hE⟩ : ∃ E, E = min (e - e')
      (max ((m.log2 + 1 + e) - (m'.log2 + 1 + e') - 53) (-1074)) := ⟨_, rfl⟩
  obtain ⟨k, hk⟩ : ∃ k, k = (e - e' - E).toNat := ⟨_, rfl⟩
  have hdiv : UnpackedFloat.div Format.binary64 (.finite s m e hm) (.finite s' m' e' hm') =
      roundWithAccuracy Format.binary64 (s / s') (m * 2 ^ k / m') E
        (accuracyOfFraction (m * 2 ^ k % m') m') := by
    rw [← Nat.shiftLeft_eq, hk, hE]
    rfl
  have hlong : 52 ≤ (m * 2 ^ k / m').log2 ∨ E ≤ -1074 := by
    by_cases hmin : E ≤ -1074
    · exact .inr hmin
    · exact .inl (log2_quotient hm hm' (by omega))
  have hm0 : (m' : Rat) ≠ 0 := by exact_mod_cast hm'.ne'
  have hvalue : ((m * 2 ^ k : Nat) : Rat) / m' * 2 ^ E = m * 2 ^ e / (m' * 2 ^ e') := by
    have hpow : (2 : Rat) ^ k * 2 ^ E * 2 ^ e' = 2 ^ e := by
      rw [← zpow_natCast, ← zpow_add₀ two_ne_zero, ← zpow_add₀ two_ne_zero]
      congr 1
      omega
    rw [← hpow]
    push_cast
    field_simp
  have hrounds := exists_roundsTo_roundWithAccuracy (s / s') hlong (locates_quotient (m * 2 ^ k) hm')
    (by rwa [hvalue])
  rwa [hvalue, ← hdiv] at hrounds

/-! ### Quotients of integers -/

/-- A number that is not too small is not rounded to zero. -/
theorem RoundsTo.pos {t : Int} {x : Rat} {R : Nat} (h : RoundsTo t x R) (hx : 2 ^ (-1075 : Int) < x) :
    0 < R := by
  have hhalf : 2 ^ (t - 1) < x := by
    rcases h.lower with hlower | rfl
    · exact (zpow_lt_zpow_right₀ one_lt_two (by omega)).trans_le hlower
    · exact hx
  have hnear := (abs_le.1 h.near).1
  have hpos : (0 : Rat) < R * 2 ^ t := by linarith
  exact_mod_cast pos_of_mul_pos_left hpos (two_zpow_pos t).le

variable {x y : Float} {a b : Int}

theorem sign_eq_apply {s : Sign} {m : Nat} {e : Int} (hm : 0 < m)
    (h : ((s.apply m : Int) : Rat) * 2 ^ e = a) :
    a.sign = s.apply 1 := by
  have hm' : (0 : Rat) < m * 2 ^ e := mul_pos (by exact_mod_cast hm) (two_zpow_pos e)
  cases s
  · have hneg : (a : Rat) < 0 := by
      rw [← h]
      show ((-(m : Int) : Int) : Rat) * 2 ^ e < 0
      push_cast
      linarith
    exact Int.sign_eq_neg_one_of_neg (by exact_mod_cast hneg)
  · have hpos : (0 : Rat) < a := by
      rw [← h]
      exact hm'
    exact Int.sign_eq_one_of_pos (by exact_mod_cast hpos)

theorem apply_div (s s' : Sign) (R : Nat) : (s / s').apply R = s.apply 1 * s'.apply 1 * R := by
  cases s <;> cases s' <;> simp [Sign.apply] <;> rfl

/-- An integer divided by one that is not zero. -/
theorem exists_roundsTo_div_int (hx : int? x = some a) (hy : int? y = some b) (ha : a ≠ 0) (hb : b ≠ 0)
    (hmax : a.natAbs ≤ 2 ^ 53) :
    ∃ t R, 0 < R ∧ RoundsTo t ((a.natAbs : Rat) / b.natAbs) R ∧
      value? (x / y).toModel.unpack = some (((a * b).sign * R : Int) * (2 : Rat) ^ t) := by
  obtain ⟨s, hxs, rfl⟩ | ⟨s, m, e, hm, hxs, -, -, -, hma⟩ := unpack_cases hx
  · exact absurd rfl ha
  obtain ⟨s', hys, rfl⟩ | ⟨s', m', e', hm', hys, -, -, -, hmb⟩ := unpack_cases hy
  · exact absurd rfl hb
  have habs := natAbs_mul_zpow hma
  have habs' := natAbs_mul_zpow hmb
  rw [natAbs_apply] at habs habs'
  have ha1 : (1 : Rat) ≤ a.natAbs := by exact_mod_cast Int.natAbs_pos.2 ha
  have hb1 : (1 : Rat) ≤ b.natAbs := by exact_mod_cast Int.natAbs_pos.2 hb
  have hlarge : (a.natAbs : Rat) / b.natAbs ≤ largest :=
    (div_le_self (Nat.cast_nonneg _) hb1).trans (le_largest_of_le rfl hmax)
  have hsmall : (2 : Rat) ^ (-1075 : Int) < a.natAbs / b.natAbs := by
    have hb2 := natAbs_lt_of_int? hy
    calc (2 : Rat) ^ (-1075 : Int) < 2 ^ (-1024 : Int) := zpow_lt_zpow_right₀ one_lt_two (by decide)
      _ = 1 / 2 ^ (1024 : Int) := by rw [zpow_neg, one_div]
      _ ≤ 1 / b.natAbs := one_div_le_one_div_of_le (zero_lt_one.trans_le hb1) hb2.le
      _ ≤ a.natAbs / b.natAbs := div_le_div_of_nonneg_right ha1 (zero_le_one.trans hb1)
  obtain ⟨t, R, hrounds, hvalue⟩ := exists_roundsTo_div s s' hm hm' (by rwa [habs, habs'])
  rw [habs, habs'] at hrounds
  refine ⟨t, R, hrounds.pos hsmall, hrounds, ?_⟩
  have hunpack : (x / y).toModel = Float.Model.pack
      (UnpackedFloat.div Format.binary64 x.toModel.unpack y.toModel.unpack) := rfl
  rw [hunpack, hxs, hys, hvalue, apply_div, Int.sign_mul, sign_eq_apply hm hma, sign_eq_apply hm' hmb]

theorem unpack_of_int?_zero (hx : int? x = some 0) : ∃ s, x.toModel.unpack = .zero s := by
  rcases unpack_cases hx with ⟨s, hxs, -⟩ | ⟨s, m, e, hm, -, -, -, -, hma⟩
  · exact ⟨s, hxs⟩
  · have happly := natAbs_apply s m
    rw [Int.cast_zero, mul_eq_zero, or_iff_left (two_zpow_pos e).ne', Int.cast_eq_zero] at hma
    rw [hma] at happly
    exact absurd happly hm.ne

/-- Zero divided by an integer that is not zero. -/
theorem unpack_zero_div (hx : int? x = some 0) (hy : int? y = some b) (hb : b ≠ 0) :
    ∃ s, (x / y).toModel.unpack = .zero s := by
  obtain ⟨s', hys, rfl⟩ | ⟨s', m', e', hm', hys, -⟩ := unpack_cases hy
  · exact absurd rfl hb
  obtain ⟨s, hxs⟩ := unpack_of_int?_zero hx
  have hunpack : (x / y).toModel = Float.Model.pack
      (UnpackedFloat.div Format.binary64 x.toModel.unpack y.toModel.unpack) := rfl
  rw [hunpack, hxs, hys]
  exact ⟨s / s', UnpackedFloat.unpack_packedZero⟩

/-! ### Positive numbers -/

variable {p q : Rat}

/-- A number above zero has a positive sign. -/
theorem exists_of_value?_pos (hx : value? x.toModel.unpack = some p) (hp : 0 < p) :
    ∃ m e hm, x.toModel.unpack = .finite .positive m e hm ∧ (m : Rat) * 2 ^ e = p := by
  generalize x.toModel.unpack = u at hx
  cases u with
  | infinity | notANumber => cases hx
  | zero =>
      cases hx
      exact absurd hp (lt_irrefl 0)
  | finite s m e hm =>
      cases hx
      cases s
      · have hneg : ((Sign.negative.apply m : Int) : Rat) ≤ 0 := by
          show ((-(m : Int) : Int) : Rat) ≤ 0
          exact_mod_cast Int.neg_nonpos_of_nonneg (Int.natCast_nonneg m)
        exact absurd hp (not_lt_of_ge (mul_nonpos_of_nonpos_of_nonneg hneg (two_zpow_pos e).le))
      · exact ⟨m, e, hm, rfl, rfl⟩

/-- A sum of positive numbers is rounded as the exact sum. -/
theorem exists_roundsTo_add (hx : value? x.toModel.unpack = some p) (hy : value? y.toModel.unpack = some q)
    (hp : 0 < p) (hq : 0 < q) (hmax : p + q ≤ largest) :
    ∃ t R, RoundsTo t (p + q) R ∧ value? (x + y).toModel.unpack = some ((R : Rat) * 2 ^ t) := by
  obtain ⟨m, e, hm, hxu, rfl⟩ := exists_of_value?_pos hx hp
  obtain ⟨m', e', hm', hyu, rfl⟩ := exists_of_value?_pos hy hq
  obtain ⟨E, hE⟩ : ∃ E, E = min e e' := ⟨_, rfl⟩
  obtain ⟨n, hn⟩ : ∃ n, n = m <<< (e - E).toNat := ⟨_, rfl⟩
  obtain ⟨n', hn'⟩ : ∃ n', n' = m' <<< (e' - E).toNat := ⟨_, rfl⟩
  have hvalue : (n : Rat) * 2 ^ E = m * 2 ^ e := by
    rw [hn]
    exact apply_shiftLeft .positive m (by omega)
  have hvalue' : (n' : Rat) * 2 ^ E = m' * 2 ^ e' := by
    rw [hn']
    exact apply_shiftLeft .positive m' (by omega)
  have hpos : 0 < n + n' := by
    have := Nat.two_pow_pos (e - E).toNat
    rw [hn, Nat.shiftLeft_eq]
    positivity
  have hadd : (x + y).toModel =
      Float.Model.pack (UnpackedFloat.round Format.binary64 .positive (n + n') E) := by
    show Float.Model.pack (UnpackedFloat.add Format.binary64 x.toModel.unpack y.toModel.unpack) = _
    have hnormal := normalize_of_pos (show 0 < (n + n' : Int) by omega) E .positive
    rw [show ((n : Int) + n').toNat = n + n' by omega] at hnormal
    rw [hxu, hyu, ← hnormal, hn, hn', hE]
    rfl
  have hsum : ((n + n' : Nat) : Rat) * 2 ^ E = m * 2 ^ e + m' * 2 ^ e' := by
    rw [Nat.cast_add, add_mul, hvalue, hvalue']
  have hrounds := exists_roundsTo_round .positive hpos (by rwa [hsum])
  rwa [hsum, ← hadd] at hrounds

/-- No number is larger than the largest one. -/
theorem le_largest_of_value? (hx : value? x.toModel.unpack = some p) (hp : 0 < p) : p ≤ largest := by
  obtain ⟨m, e, hm, hxu, rfl⟩ := exists_of_value?_pos hx hp
  have hm53 : m ≤ 2 ^ 53 - 1 := by
    rcases finite_cases hxu with ⟨hlog, -⟩ | ⟨hshort, -⟩
    · exact Nat.le_sub_one_of_lt ((Nat.log2_eq_iff hm.ne').1 hlog).2
    · omega
  have he : e ≤ 971 := by
    rcases finite_cases hxu with ⟨-, -, he⟩ | ⟨-, rfl⟩
    · exact he
    · decide
  exact mul_le_mul (by exact_mod_cast hm53) (zpow_le_zpow_right₀ one_le_two he) (two_zpow_pos e).le
    (Nat.cast_nonneg _)

/-- A difference of positive numbers is rounded as the exact difference. -/
theorem exists_roundsTo_sub (hx : value? x.toModel.unpack = some p) (hy : value? y.toModel.unpack = some q)
    (hq : 0 < q) (hpq : q < p) :
    ∃ t R, RoundsTo t (p - q) R ∧ value? (x - y).toModel.unpack = some ((R : Rat) * 2 ^ t) := by
  have hmax : p - q ≤ largest := (sub_le_self p hq.le).trans (le_largest_of_value? hx (hq.trans hpq))
  obtain ⟨m, e, hm, hxu, rfl⟩ := exists_of_value?_pos hx (hq.trans hpq)
  obtain ⟨m', e', hm', hyu, rfl⟩ := exists_of_value?_pos hy hq
  obtain ⟨E, hE⟩ : ∃ E, E = min e e' := ⟨_, rfl⟩
  obtain ⟨n, hn⟩ : ∃ n, n = m <<< (e - E).toNat := ⟨_, rfl⟩
  obtain ⟨n', hn'⟩ : ∃ n', n' = m' <<< (e' - E).toNat := ⟨_, rfl⟩
  have hvalue : (n : Rat) * 2 ^ E = m * 2 ^ e := by
    rw [hn]
    exact apply_shiftLeft .positive m (by omega)
  have hvalue' : (n' : Rat) * 2 ^ E = m' * 2 ^ e' := by
    rw [hn']
    exact apply_shiftLeft .positive m' (by omega)
  have hlt : n' < n := by
    rw [← hvalue, ← hvalue'] at hpq
    exact_mod_cast lt_of_mul_lt_mul_right hpq (two_zpow_pos E).le
  have hsub : (x - y).toModel =
      Float.Model.pack (UnpackedFloat.round Format.binary64 .positive (n - n') E) := by
    show Float.Model.pack (UnpackedFloat.sub Format.binary64 x.toModel.unpack y.toModel.unpack) = _
    have hnormal := normalize_of_pos (show 0 < (n - n' : Int) by omega) E .positive
    rw [show ((n : Int) - n').toNat = n - n' by omega] at hnormal
    rw [hxu, hyu, ← hnormal, hn, hn', hE]
    rfl
  have hdiff : ((n - n' : Nat) : Rat) * 2 ^ E = m * 2 ^ e - m' * 2 ^ e' := by
    rw [Nat.cast_sub hlt.le, sub_mul, hvalue, hvalue']
  have hrounds := exists_roundsTo_round .positive (Nat.sub_pos_of_lt hlt) (by rwa [hdiff])
  rwa [hdiff, ← hsub] at hrounds

/-- A product of positive numbers is rounded as the exact product. -/
theorem exists_roundsTo_mul (hx : value? x.toModel.unpack = some p) (hy : value? y.toModel.unpack = some q)
    (hp : 0 < p) (hq : 0 < q) (hmax : p * q ≤ largest) :
    ∃ t R, RoundsTo t (p * q) R ∧ value? (x * y).toModel.unpack = some ((R : Rat) * 2 ^ t) := by
  obtain ⟨m, e, hm, hxu, rfl⟩ := exists_of_value?_pos hx hp
  obtain ⟨m', e', hm', hyu, rfl⟩ := exists_of_value?_pos hy hq
  have hmul : (x * y).toModel = Float.Model.pack
      (roundWithAccuracy Format.binary64 .positive (m * m') (e + e') .exact) := by
    show Float.Model.pack (UnpackedFloat.mul Format.binary64 x.toModel.unpack y.toModel.unpack) = _
    rw [hxu, hyu]
    rfl
  have hlong : 52 ≤ (m * m').log2 ∨ e + e' ≤ -1074 := by
    rcases finite_cases hxu with ⟨hlog, -, -⟩ | ⟨-, rfl⟩
    · exact .inl (le_log2_mul hm hm' hlog)
    · rcases finite_cases hyu with ⟨hlog', -, -⟩ | ⟨-, rfl⟩
      · exact .inl (mul_comm m' m ▸ le_log2_mul hm' hm hlog')
      · exact .inr (by decide)
  have hvalue : ((m * m' : Nat) : Rat) * 2 ^ (e + e') = m * 2 ^ e * (m' * 2 ^ e') := by
    rw [zpow_add₀ two_ne_zero]
    push_cast
    ring
  have hrounds := exists_roundsTo_roundWithAccuracy .positive hlong (locates_exact (m * m')) (by rwa [hvalue])
  rwa [hvalue, ← hmul] at hrounds

/-- A quotient of positive numbers is rounded as the exact quotient. -/
theorem exists_roundsTo_div_pos (hx : value? x.toModel.unpack = some p) (hy : value? y.toModel.unpack = some q)
    (hp : 0 < p) (hq : 0 < q) (hmax : p / q ≤ largest) :
    ∃ t R, RoundsTo t (p / q) R ∧ value? (x / y).toModel.unpack = some ((R : Rat) * 2 ^ t) := by
  obtain ⟨m, e, hm, hxu, rfl⟩ := exists_of_value?_pos hx hp
  obtain ⟨m', e', hm', hyu, rfl⟩ := exists_of_value?_pos hy hq
  have hdiv : (x / y).toModel = Float.Model.pack
      (UnpackedFloat.div Format.binary64 x.toModel.unpack y.toModel.unpack) := rfl
  rw [hdiv, hxu, hyu]
  exact exists_roundsTo_div .positive .positive hm hm' hmax

/-- Positive numbers are compared as the rational numbers that they are. -/
theorem lt_of_value?_pos (hx : value? x.toModel.unpack = some p) (hy : value? y.toModel.unpack = some q)
    (hp : 0 < p) (hq : 0 < q) (h : x < y) : p < q := by
  obtain ⟨m, e, hm, hxu, rfl⟩ := exists_of_value?_pos hx hp
  obtain ⟨m', e', hm', hyu, rfl⟩ := exists_of_value?_pos hy hq
  have hlt : UnpackedFloat.lt x.toModel.unpack y.toModel.unpack = true := decide_eq_true_iff.1 h
  rw [hxu, hyu] at hlt
  have hcompare : (compare e e').then (compare m m') = .lt := by
    simpa [UnpackedFloat.lt, UnpackedFloat.compare] using hlt
  rcases Ordering.then_eq_lt.1 hcompare with he | ⟨he, hm⟩
  · -- the larger exponent comes with a significand of full length
    rw [Int.compare_eq_lt] at he
    have hm53 : (m : Rat) < 2 ^ (53 : Int) := by
      rcases finite_cases hxu with ⟨hlog, -⟩ | ⟨hshort, -⟩
      · exact_mod_cast ((Nat.log2_eq_iff hm.ne').1 hlog).2
      · exact_mod_cast hshort.trans (by decide)
    have hmin : -1074 ≤ e := by
      rcases finite_cases hxu with ⟨-, hmin, -⟩ | ⟨-, rfl⟩
      · exact hmin
      · decide
    have hm52 : (2 : Rat) ^ (52 : Int) ≤ m' := by
      rcases finite_cases hyu with ⟨hlog, -⟩ | ⟨-, rfl⟩
      · exact_mod_cast ((Nat.log2_eq_iff hm'.ne').1 hlog).1
      · omega
    calc (m : Rat) * 2 ^ e < 2 ^ (53 : Int) * 2 ^ e := mul_lt_mul_of_pos_right hm53 (two_zpow_pos e)
      _ = 2 ^ (53 + e) := (zpow_add₀ two_ne_zero _ _).symm
      _ ≤ 2 ^ (52 + e') := zpow_le_zpow_right₀ one_le_two (by omega)
      _ = 2 ^ (52 : Int) * 2 ^ e' := zpow_add₀ two_ne_zero _ _
      _ ≤ m' * 2 ^ e' := mul_le_mul_of_nonneg_right hm52 (two_zpow_pos e').le
  · rw [Int.compare_eq_eq] at he
    rw [Nat.compare_eq_lt] at hm
    rw [he]
    exact mul_lt_mul_of_pos_right (by exact_mod_cast hm) (two_zpow_pos e')

/-! ### Natural numbers -/

theorem int?_sub_zero {a : Int} (hx : int? x = some a) (hy : int? y = some 0) : int? (x - y) = some a := by
  have hunpack : (x - y).toModel = Float.Model.pack
      (UnpackedFloat.sub Format.binary64 x.toModel.unpack y.toModel.unpack) := rfl
  obtain ⟨s', hys⟩ := unpack_of_int?_zero hy
  rw [int?_eq_some, hunpack, hys]
  rcases unpack_cases hx with ⟨s, hxs, rfl⟩ | ⟨s, m, e, hm, hxs, hlog, hmin, hmax, ha⟩
  · rw [hxs]
    cases s <;> cases s' <;> rfl
  · rw [hxs, ← ha]
    show value? (Float.Model.pack (.finite s m e hm)).unpack = _
    rw [unpack_pack s hlog hmin hmax]
    rfl

section

variable {a b : Nat} (hx : int? x = some (a : Int)) (hy : int? y = some (b : Int)) (hab : b ≤ a)

include hx hy hab

/-- A difference of natural numbers is a natural number, also where it is rounded. -/
theorem exists_int?_sub : ∃ c : Nat, int? (x - y) = some (c : Int) := by
  rcases Nat.lt_or_ge (2 ^ 53) (a - b) with hlarge | hsmall
  · rcases Nat.eq_zero_or_pos b with rfl | hb
    · exact ⟨a, int?_sub_zero hx hy⟩
    · have hb' : (0 : Rat) < b := by exact_mod_cast hb
      have hab' : (b : Rat) < a := by exact_mod_cast (show b < a by omega)
      obtain ⟨t, R, hrounds, hvalue⟩ := exists_roundsTo_sub (int?_eq_some.1 hx) (int?_eq_some.1 hy) hb' hab'
      -- the distance of numbers of this size is an integer
      have ht : 53 < t + 53 := by
        refine hrounds.lt_exponent ?_
        rw [Int.cast_natCast, Int.cast_natCast, ← Nat.cast_sub hab]
        exact_mod_cast hlarge.le
      refine ⟨R * 2 ^ t.toNat, int?_eq_some.2 ?_⟩
      rw [hvalue, zpow_of_nonneg (by omega)]
      push_cast
      rfl
  · exact ⟨a - b, by rw [int?_sub hx hy (by omega), Nat.cast_sub hab]⟩

/-- Natural numbers are compared as such. -/
theorem not_lt_of_int? : ¬x < y := by
  intro hlt'
  have hlt : UnpackedFloat.lt x.toModel.unpack y.toModel.unpack = true := decide_eq_true_iff.1 hlt'
  rcases Nat.eq_zero_or_pos b with rfl | hb
  · obtain ⟨s', hys⟩ := unpack_of_int?_zero hy
    rw [hys] at hlt
    rcases Nat.eq_zero_or_pos a with rfl | ha
    · obtain ⟨s, hxs⟩ := unpack_of_int?_zero hx
      rw [hxs] at hlt
      cases hlt
    · obtain ⟨m, e, hm, hxs, -⟩ := exists_of_value?_pos (int?_eq_some.1 hx) (by exact_mod_cast ha)
      rw [hxs] at hlt
      cases hlt
  · have hb' : (0 : Rat) < (b : Int) := by exact_mod_cast hb
    have ha' : (0 : Rat) < (a : Int) := by exact_mod_cast hb.trans_le hab
    have hba := lt_of_value?_pos (int?_eq_some.1 hx) (int?_eq_some.1 hy) ha' hb' hlt'
    exact absurd (by exact_mod_cast hba) hab.not_gt

end

/-! ### Values that are read off -/

theorem isFinite_of_value? (hx : value? x.toModel.unpack = some p) : x.isFinite = true := by
  show x.toModel.unpack.isFinite = true
  generalize x.toModel.unpack = u at hx
  cases u with
  | infinity | notANumber => cases hx
  | zero | finite => rfl

/-- The integer part, downwards, of the parts of a number. -/
theorem floorOf_eq (s : Sign) (m : Nat) (e : Int) :
    floorOf (s == .negative) m e = ⌊((s.apply m : Int) : Rat) * 2 ^ e⌋ := by
  have happly : (if (s == .negative) = true then -Int.ofNat m else Int.ofNat m) = s.apply m := by
    cases s <;> rfl
  unfold floorOf
  rw [happly]
  dsimp only
  split
  · rename_i he
    have hcast : ((s.apply m : Int) : Rat) * 2 ^ e.toNat = (s.apply m * 2 ^ e.toNat : Int) := by
      push_cast
      rfl
    rw [zpow_of_nonneg he, hcast, Int.floor_intCast]
  · rename_i he
    have hcast : ((s.apply m : Int) : Rat) / 2 ^ (-e).toNat = (s.apply m : Int) / (2 ^ (-e).toNat : Nat) := by
      push_cast
      rfl
    rw [zpow_toNat (by omega), mul_one_div, hcast, Rat.floor_intCast_div_natCast]
    push_cast
    rfl

theorem floorInt_of_value? (hx : value? x.toModel.unpack = some p) : floorInt x = .ok ⌊p⌋ := by
  unfold floorInt exactly
  rw [Binary.of_eq]
  generalize x.toModel.unpack = u at hx
  cases u with
  | infinity | notANumber => cases hx
  | zero s =>
      cases hx
      refine congrArg Except.ok ((floorOf_eq s 0 (-1074)).trans ?_)
      have hzero : s.apply (0 : Nat) = 0 := Int.natAbs_eq_zero.1 (natAbs_apply s 0)
      rw [hzero, Int.cast_zero, zero_mul]
  | finite s m e hm =>
      cases hx
      exact congrArg Except.ok (floorOf_eq s m e)

theorem lt_zero_iff_of_value? (hx : value? x.toModel.unpack = some p) : x < 0.0 ↔ p < 0 := by
  have hlt : x < 0.0 ↔ UnpackedFloat.lt x.toModel.unpack (.zero .positive) = true := decide_eq_true_iff
  rw [hlt]
  generalize x.toModel.unpack = u at hx
  cases u with
  | infinity | notANumber => cases hx
  | zero s =>
      cases hx
      exact iff_of_false (by cases s <;> exact Bool.false_ne_true) (lt_irrefl 0)
  | finite s m e hm =>
      cases hx
      have hpos : (0 : Rat) < m * 2 ^ e := mul_pos (by exact_mod_cast hm) (two_zpow_pos e)
      cases s
      · refine iff_of_true rfl ?_
        show ((-(m : Int) : Int) : Rat) * 2 ^ e < 0
        push_cast
        linarith
      · refine iff_of_false Bool.false_ne_true (not_lt_of_ge ?_)
        exact hpos.le

end MathExpr.Real
