import MathExpr.Proofs.Integers
import Mathlib.Algebra.Order.Field.Power
import Mathlib.Data.Nat.Cast.Field
import Mathlib.Data.Rat.Cast.Order
import Mathlib.Tactic.FieldSimp
import Mathlib.Tactic.Linarith
import Mathlib.Tactic.Positivity
import Mathlib.Tactic.Ring

/-!
# Rounding to nearest

A number is rounded to a floating-point number that is no farther from it than half the distance of two such
numbers (`Real.RoundsTo`), unless it is too large (`Real.exists_roundsTo_round`). So rounding keeps the order
to what needs no rounding (`Real.RoundsTo.le_dyadic`), and it keeps that (`Real.RoundsTo.eq_natCast`).

The exact number is followed through the steps of rounding by where it lies behind the significand that has
been computed so far: on it, or before, on or behind the middle to the next one (`Real.Locates`). Cutting bits
off the significand keeps this, so that it still holds where the significand is rounded.
-/

namespace MathExpr.Real

open Float.Model (Format UnpackedFloat totalExponent)
open Float.Model.UnpackedFloat (Sign ExtendedMantissa Accuracy accuracyOfFraction packComponents
  roundWithAccuracy shiftToExponent shiftToTargetExponent)

/-! ### Values -/

/-- The rational number that an unpacked number is, if it is finite. -/
def value? : UnpackedFloat → Option Rat
  | .zero _ => some 0
  | .finite s m e _ => some ((s.apply m : Int) * (2 : Rat) ^ e)
  | _ => none

/-- A power of two that is divided out. -/
theorem zpow_toNat {e : Int} (he : e < 0) : (2 : Rat) ^ e = 1 / 2 ^ (-e).toNat := by
  obtain ⟨k, hk⟩ : ∃ k : Nat, e = -k := ⟨(-e).toNat, by omega⟩
  subst hk
  rw [neg_neg, Int.toNat_natCast, zpow_neg, zpow_natCast, one_div]

theorem zpow_of_nonneg {e : Int} (he : 0 ≤ e) : (2 : Rat) ^ e = 2 ^ e.toNat := by
  obtain ⟨k, rfl⟩ := Int.eq_ofNat_of_zero_le he
  rw [Int.toNat_natCast, zpow_natCast]

/-- The same sign before equal numbers. -/
theorem apply_mul_eq_mul {s : Sign} {m m' : Nat} {q q' : Rat} (h : m * q = m' * q') :
    ((s.apply m : Int) : Rat) * q = (s.apply m' : Int) * q' := by
  cases s
  · show ((-(m : Int) : Int) : Rat) * q = (-(m' : Int) : Int) * q'
    rw [Int.cast_neg, Int.cast_neg, Int.cast_natCast, Int.cast_natCast, neg_mul, neg_mul, h]
  · exact h

theorem apply_mul_eq {s : Sign} {m N : Nat} {q : Rat} (h : m * q = N) :
    ((s.apply m : Int) : Rat) * q = (s.apply N : Int) := by
  rw [← mul_one ((s.apply N : Int) : Rat)]
  exact apply_mul_eq_mul (by rw [h, mul_one])

theorem natAbs_apply (s : Sign) (m : Nat) : (s.apply m).natAbs = m := by
  cases s
  · exact Int.natAbs_neg m
  · rfl

theorem two_zpow_pos (t : Int) : (0 : Rat) < 2 ^ t := zpow_pos two_pos t

/-! ### Packing -/

theorem ofBitVec_unpackSign {f : Format} (s : Sign) (e : BitVec f.exponentBits)
    (m : BitVec f.mantissaBitsWithoutImplicit) :
    Sign.ofBitVec (UnpackedFloat.unpackSign (packComponents f s e m)) = s := by
  have hsign : UnpackedFloat.unpackSign (packComponents f s e m) = s.toBitVec := by
    refine BitVec.eq_of_getLsbD_eq fun i hi => ?_
    have hi0 : i = 0 := by omega
    subst hi0
    simp [UnpackedFloat.unpackSign, packComponents, BitVec.getLsbD_append, BitVec.getElem_append]
  rw [hsign]
  cases s <;> rfl

theorem value?_pack_zero (s : Sign) :
    value? (Float.Model.pack (.zero s)).unpack = some ((0 : Int) : Rat) := by
  have hunpack : (Float.Model.pack (.zero s)).unpack = .zero s := by cases s <;> rfl
  rw [hunpack, Int.cast_zero]
  rfl

/-- Packing keeps a number with a significand of full length. -/
theorem unpack_pack (s : Sign) {m : Nat} {e : Int} (hm : m.log2 = 52) (hmin : -1074 ≤ e)
    (hmax : e ≤ 971) (hpos : 0 < m) :
    (Float.Model.pack (.finite s m e hpos)).unpack = .finite s m e hpos := by
  have hbounds := (Nat.log2_eq_iff hpos.ne').1 hm
  obtain ⟨b, hb⟩ : ∃ b : Nat, (e + 1075).toNat = b := ⟨_, rfl⟩
  have hpack : UnpackedFloat.pack Format.binary64 (.finite s m e hpos) =
      packComponents Format.binary64 s (BitVec.ofNat 11 b) (BitVec.ofNat 52 m) := by
    have hbiased : (e + (Format.binary64.exponentBias : Int) +
        (Format.binary64.mantissaBitsWithoutImplicit : Int)).toNat = b := by
      rw [← hb]
      show (e + 1023 + 52).toNat = _
      omega
    unfold UnpackedFloat.pack
    simp only [hbiased]
    rw [if_neg (by show ¬ 2 ^ 11 ≤ b + 1; omega), if_pos (by rw [hm]; rfl)]
  have hexponent : (BitVec.ofNat 11 b).toNat = b := by
    rw [BitVec.toNat_ofNat]
    omega
  have hmantissa : (BitVec.ofNat 52 m).toNat = m - 2 ^ 52 := by
    rw [BitVec.toNat_ofNat]
    omega
  have hones : BitVec.ofNat 11 b ≠ -1#11 := fun h => by
    have := congrArg BitVec.toNat h
    rw [hexponent] at this
    change b = 2047 at this
    omega
  have hzero : BitVec.ofNat 11 b ≠ 0#11 := fun h => by
    have := congrArg BitVec.toNat h
    rw [hexponent] at this
    change b = 0 at this
    omega
  show UnpackedFloat.unpack Format.binary64 (UnpackedFloat.pack Format.binary64 _) = _
  rw [hpack]
  unfold UnpackedFloat.unpack
  simp only [UnpackedFloat.unpackMantissa_packComponents,
    UnpackedFloat.unpackExponent_packComponents, ofBitVec_unpackSign]
  rw [if_neg hones, if_neg hzero]
  congr 1
  · rw [toNat_implicit, hmantissa]
    omega
  · rw [hexponent]
    show (b : Int) - (1023 + 52) = e
    omega

/-- Packing keeps a number that is too small for a significand of full length. -/
theorem unpack_pack_short (s : Sign) {m : Nat} (hm : m < 2 ^ 52) (hpos : 0 < m) :
    (Float.Model.pack (.finite s m (-1074) hpos)).unpack = .finite s m (-1074) hpos := by
  have hlog : m.log2 < 52 := (Nat.log2_lt hpos.ne').2 hm
  have hpack : UnpackedFloat.pack Format.binary64 (.finite s m (-1074) hpos) =
      packComponents Format.binary64 s 0#11 (BitVec.ofNat 52 m) := by
    unfold UnpackedFloat.pack
    dsimp only
    rw [if_neg (by decide), if_neg (by show ¬m.log2 + 1 = 53; omega)]
  have hmantissa : (BitVec.ofNat 52 m).toNat = m := by
    rw [BitVec.toNat_ofNat, Nat.mod_eq_of_lt hm]
  have hzero : BitVec.ofNat 52 m ≠ 0#52 := fun h => by
    have := congrArg BitVec.toNat h
    rw [hmantissa] at this
    exact hpos.ne' this
  show UnpackedFloat.unpack Format.binary64 (UnpackedFloat.pack Format.binary64 _) = _
  rw [hpack]
  unfold UnpackedFloat.unpack
  simp only [UnpackedFloat.unpackMantissa_packComponents,
    UnpackedFloat.unpackExponent_packComponents, ofBitVec_unpackSign]
  rw [if_neg (by decide), if_pos trivial, dif_neg hzero]
  congr 1

/-! ### Behind the significand -/

/-- Where a number lies, by the bits behind a significand: on the significand, before the middle to the next
one, in the middle or behind it. -/
def Locates : ExtendedMantissa → Rat → Prop
  | ⟨m, false, false⟩, v => v = m
  | ⟨m, false, true⟩, v => m < v ∧ v < m + 1 / 2
  | ⟨m, true, false⟩, v => v = m + 1 / 2
  | ⟨m, true, true⟩, v => m + 1 / 2 < v ∧ v < m + 1

variable {em : ExtendedMantissa} {v : Rat}

theorem Locates.bounds (h : Locates em v) : em.mantissa ≤ v ∧ v < em.mantissa + 1 := by
  obtain ⟨m, roundBit, stickyBit⟩ := em
  cases roundBit <;> cases stickyBit
  · have h : v = m := h
    constructor <;> linarith
  · exact ⟨h.1.le, h.2.trans (by linarith)⟩
  · have h : v = m + 1 / 2 := h
    constructor <;> linarith
  · exact ⟨by linarith [h.1], h.2⟩

/-- Rounding to the nearest significand is off by no more than a half. -/
theorem Locates.near (h : Locates em v) : |(em.roundedMantissa : Rat) - v| ≤ 1 / 2 := by
  obtain ⟨m, roundBit, stickyBit⟩ := em
  rw [abs_le]
  cases roundBit <;> cases stickyBit
  · have h : v = m := h
    show _ ≤ (m : Rat) - v ∧ (m : Rat) - v ≤ _
    constructor <;> linarith
  · obtain ⟨hlower, hupper⟩ : m < v ∧ v < m + 1 / 2 := h
    show _ ≤ (m : Rat) - v ∧ (m : Rat) - v ≤ _
    constructor <;> linarith
  · have h : v = m + 1 / 2 := h
    show _ ≤ ((m + m % 2 : Nat) : Rat) - v ∧ ((m + m % 2 : Nat) : Rat) - v ≤ _
    rcases Nat.mod_two_eq_zero_or_one m with hm | hm
    · rw [hm]
      push_cast
      constructor <;> linarith
    · rw [hm]
      push_cast
      constructor <;> linarith
  · obtain ⟨hlower, hupper⟩ : m + 1 / 2 < v ∧ v < m + 1 := h
    show _ ≤ ((m + 1 : Nat) : Rat) - v ∧ ((m + 1 : Nat) : Rat) - v ≤ _
    push_cast
    constructor <;> linarith

/-- Rounding does not go beyond a significand. -/
theorem Locates.roundedMantissa_le (h : Locates em v) {n : Nat} (hv : v ≤ n) : em.roundedMantissa ≤ n := by
  have hnear := (abs_le.1 h.near).2
  have hlt : (em.roundedMantissa : Rat) < (n + 1 : Nat) := by
    push_cast
    linarith
  exact Nat.le_of_lt_succ (by exact_mod_cast hlt)

theorem Locates.le_roundedMantissa (h : Locates em v) {n : Nat} (hv : n ≤ v) : n ≤ em.roundedMantissa := by
  have hnear := (abs_le.1 h.near).1
  have hlt : (n : Rat) < (em.roundedMantissa + 1 : Nat) := by
    push_cast
    linarith
  exact Nat.le_of_lt_succ (by exact_mod_cast hlt)

/-- Cutting off a bit keeps where a number lies. -/
theorem Locates.shiftRightOne (h : Locates em v) : Locates em.shiftRightOne (v / 2) := by
  obtain ⟨m, roundBit, stickyBit⟩ := em
  have hsplit : (m : Rat) = 2 * (m / 2 : Nat) + (m % 2 : Nat) := by exact_mod_cast (Nat.div_add_mod m 2).symm
  unfold ExtendedMantissa.shiftRightOne
  dsimp only
  generalize m / 2 = half at hsplit ⊢
  rcases Nat.mod_two_eq_zero_or_one m with hm | hm <;> rw [hm] at hsplit ⊢ <;> push_cast at hsplit
  · -- an even significand: the number stays before the middle
    cases roundBit <;> cases stickyBit
    · have h : v = m := h
      show v / 2 = half
      linarith
    · obtain ⟨hlower, hupper⟩ : m < v ∧ v < m + 1 / 2 := h
      exact ⟨by linarith, by linarith⟩
    · have h : v = m + 1 / 2 := h
      exact ⟨by linarith, by linarith⟩
    · obtain ⟨hlower, hupper⟩ : m + 1 / 2 < v ∧ v < m + 1 := h
      exact ⟨by linarith, by linarith⟩
  · -- an odd significand: the number is in the middle or behind it
    cases roundBit <;> cases stickyBit
    · have h : v = m := h
      show v / 2 = half + 1 / 2
      linarith
    · obtain ⟨hlower, hupper⟩ : m < v ∧ v < m + 1 / 2 := h
      exact ⟨by linarith, by linarith⟩
    · have h : v = m + 1 / 2 := h
      exact ⟨by linarith, by linarith⟩
    · obtain ⟨hlower, hupper⟩ : m + 1 / 2 < v ∧ v < m + 1 := h
      exact ⟨by linarith, by linarith⟩

theorem Locates.shiftRight (h : Locates em v) (k : Nat) : Locates (em >>> k) (v / 2 ^ k) := by
  induction k with
  | zero =>
      rw [pow_zero, div_one]
      exact h
  | succ k ih =>
      rw [pow_succ, ← div_div]
      exact ih.shiftRightOne

theorem locates_exact (m : Nat) : Locates (.ofMantissaAndAccuracy m .exact) m := rfl

/-- The remainder of a division says where the quotient lies. -/
theorem locates_quotient (n : Nat) {d : Nat} (hd : 0 < d) :
    Locates (.ofMantissaAndAccuracy (n / d) (accuracyOfFraction (n % d) d)) ((n : Rat) / d) := by
  have hd' : (0 : Rat) < d := by exact_mod_cast hd
  have hsplit : (n : Rat) / d = (n / d : Nat) + (n % d : Nat) / d := by
    rw [div_eq_iff hd'.ne', add_mul, div_mul_cancel₀ _ hd'.ne']
    exact_mod_cast (Nat.div_add_mod' n d).symm
  have hlt : ((n % d : Nat) : Rat) < d := by exact_mod_cast Nat.mod_lt n hd
  rw [hsplit]
  generalize n % d = r at hlt
  generalize n / d = q
  unfold accuracyOfFraction
  split
  · rename_i hr
    rw [hr, Nat.cast_zero, zero_div, add_zero]
    rfl
  · rename_i hr
    have hpos : (0 : Rat) < r / d := div_pos (by exact_mod_cast Nat.pos_of_ne_zero hr) hd'
    have hone : (r : Rat) / d < 1 := (div_lt_one hd').2 hlt
    cases hcompare : compare (2 * r) d with
    | lt =>
        have hhalf : (r : Rat) / d < 1 / 2 := by
          rw [div_lt_div_iff₀ hd' two_pos, one_mul, mul_comm]
          exact_mod_cast Nat.compare_eq_lt.1 hcompare
        exact ⟨by linarith, by linarith⟩
    | eq =>
        have hhalf : (r : Rat) / d = 1 / 2 := by
          rw [div_eq_div_iff hd'.ne' two_ne_zero, one_mul, mul_comm]
          exact_mod_cast Nat.compare_eq_eq.1 hcompare
        show _ = (q : Rat) + 1 / 2
        rw [hhalf]
    | gt =>
        have hhalf : 1 / 2 < (r : Rat) / d := by
          rw [div_lt_div_iff₀ two_pos hd', one_mul, mul_comm (r : Rat)]
          exact_mod_cast Nat.compare_eq_gt.1 hcompare
        exact ⟨by linarith, by linarith⟩

/-! ### Numbers of full length -/

/-- A number is rounded to a multiple of `2 ^ t`, where this is the distance of the floating-point numbers of
its size, by no more than half of it. -/
structure RoundsTo (t : Int) (x : Rat) (R : Nat) : Prop where
  lower : 2 ^ (t + 52) ≤ x ∨ t = -1074
  upper : x < 2 ^ (t + 53)
  near : |(R : Rat) * 2 ^ t - x| ≤ 2 ^ (t - 1)

/-- A significand that is short enough is not shifted. -/
theorem shiftToTargetExponent_short {m : Nat} {e : Int} (hm : m < 2 ^ 53) (he : -1074 ≤ e) :
    shiftToTargetExponent Format.binary64 m e .exact = (⟨m, false, false⟩, e) := by
  have hlog : m.log2 ≤ 52 := by
    rcases Nat.eq_zero_or_pos m with rfl | hpos
    · decide
    · exact Nat.le_of_lt_succ ((Nat.log2_lt hpos.ne').2 hm)
  have htarget : Format.binary64.targetExponent (totalExponent m e) =
      max ((m.log2 : Int) + 1 + e - 53) (-1074) := rfl
  unfold shiftToTargetExponent shiftToExponent
  rw [htarget]
  dsimp only
  rw [show (max ((m.log2 : Int) + 1 + e - 53) (-1074) - e).toNat = 0 by omega, Nat.cast_zero, add_zero]
  rfl

/-- Rounded up to a power of two, a significand is too long by one bit. -/
theorem shiftToTargetExponent_carry {e : Int} (he : -1074 ≤ e) :
    shiftToTargetExponent Format.binary64 (2 ^ 53) e .exact = (⟨2 ^ 52, false, false⟩, e + 1) := by
  have htarget : Format.binary64.targetExponent (totalExponent (2 ^ 53) e) = e + 1 := by
    show max (((2 ^ 53 : Nat).log2 : Int) + 1 + e - 53) (-1074) = _
    rw [Nat.log2_two_pow]
    omega
  unfold shiftToTargetExponent shiftToExponent
  rw [htarget]
  dsimp only
  rw [show (e + 1 - e).toNat = 1 by omega]
  rfl

/-- The largest floating-point number. -/
def largest : Rat := (2 ^ 53 - 1 : Nat) * 2 ^ (971 : Int)

theorem largest_lt : largest < 2 ^ (1024 : Int) := by
  calc largest < (2 ^ 53 : Nat) * 2 ^ (971 : Int) :=
        mul_lt_mul_of_pos_right (by norm_num) (two_zpow_pos 971)
    _ = 2 ^ (53 : Int) * 2 ^ (971 : Int) := by norm_num
    _ = 2 ^ (1024 : Int) := (zpow_add₀ two_ne_zero _ _).symm

theorem le_largest {x : Rat} (h : x ≤ 2 ^ (1023 : Int)) : x ≤ largest := by
  calc x ≤ 2 ^ (1023 : Int) := h
    _ = 2 ^ (52 : Int) * 2 ^ (971 : Int) := zpow_add₀ two_ne_zero 52 971
    _ ≤ largest := mul_le_mul_of_nonneg_right (by norm_num) (two_zpow_pos 971).le

/-- A significand that has been rounded, also up to one that is too long. -/
theorem value?_pack_rounded (s : Sign) {R : Nat} {t : Int} (hR : R ≤ 2 ^ 53) (hmin : -1074 ≤ t)
    (hmax : t ≤ 970 ∨ t = 971 ∧ R < 2 ^ 53) (hlong : 2 ^ 52 ≤ R ∨ t = -1074) :
    value? (Float.Model.pack
      (if h : (shiftToTargetExponent Format.binary64 R t .exact).1.mantissa = 0 then .zero s
      else .finite s _ (shiftToTargetExponent Format.binary64 R t .exact).2 (Nat.pos_of_ne_zero h))).unpack =
      some ((s.apply R : Int) * (2 : Rat) ^ t) := by
  rcases Nat.lt_or_eq_of_le hR with hlt | rfl
  · simp only [shiftToTargetExponent_short hlt hmin]
    rcases Nat.eq_zero_or_pos R with rfl | hpos
    · have hzero : s.apply (0 : Nat) = 0 := Int.natAbs_eq_zero.1 (natAbs_apply s 0)
      rw [dif_pos rfl, value?_pack_zero, hzero, Int.cast_zero, zero_mul]
    · rw [dif_neg hpos.ne']
      by_cases hfull : 2 ^ 52 ≤ R
      · rw [unpack_pack s ((Nat.log2_eq_iff hpos.ne').2 ⟨hfull, hlt⟩) hmin (by omega)]
        rfl
      · obtain rfl := hlong.resolve_left hfull
        rw [unpack_pack_short s (by omega)]
        rfl
  · simp only [shiftToTargetExponent_carry hmin]
    rw [dif_neg (by decide), unpack_pack s (by decide) (by omega) (by omega)]
    refine congrArg some (apply_mul_eq_mul ?_)
    rw [zpow_add_one₀ two_ne_zero]
    norm_num
    ring

/-- Cutting off what is too long keeps where a number lies, if the significand is long enough. -/
theorem locates_shiftToTargetExponent {m : Nat} {e : Int} {a : Accuracy} (hlong : 52 ≤ m.log2 ∨ e ≤ -1074)
    (h : Locates (.ofMantissaAndAccuracy m a) v) {t : Int} (ht : t = max ((m.log2 : Int) + e - 52) (-1074)) :
    ∃ em, shiftToTargetExponent Format.binary64 m e a = (em, t) ∧ Locates em (v * 2 ^ (e - t)) := by
  obtain ⟨k, hk⟩ : ∃ k : Nat, t = e + k := ⟨(t - e).toNat, by omega⟩
  have htarget : Format.binary64.targetExponent (totalExponent m e) = t := by
    rw [ht]
    show max ((m.log2 : Int) + 1 + e - 53) (-1074) = _
    omega
  have hvalue : v * 2 ^ (e - t) = v / 2 ^ k := by
    rw [hk, show e - (e + k) = -(k : Int) by omega, zpow_neg, zpow_natCast, div_eq_mul_inv]
  refine ⟨ExtendedMantissa.ofMantissaAndAccuracy m a >>> k, ?_, hvalue ▸ h.shiftRight k⟩
  unfold shiftToTargetExponent shiftToExponent
  rw [htarget]
  dsimp only
  rw [show (t - e).toNat = k by omega, ← hk]

theorem mantissa_ofMantissaAndAccuracy (m : Nat) (a : Accuracy) :
    (ExtendedMantissa.ofMantissaAndAccuracy m a).mantissa = m := by
  rcases a with _ | ⟨_ | _ | _⟩ <;> rfl

theorem zpow_le_of_log2 {m : Nat} (hm : 0 < m) : (2 : Rat) ^ (m.log2 : Int) ≤ m := by
  rw [zpow_natCast]
  exact_mod_cast ((Nat.log2_eq_iff hm.ne').1 rfl).1

theorem lt_zpow_of_log2 (m : Nat) : (m : Rat) + 1 ≤ 2 ^ ((m.log2 : Int) + 1) := by
  have hlt : m < 2 ^ (m.log2 + 1) := Nat.lt_log2_self
  rw [show (m.log2 : Int) + 1 = (m.log2 + 1 : Nat) by omega, zpow_natCast]
  exact_mod_cast hlt

/-- The exponent of the format is that of the size of the number. -/
theorem size_of_locates {m : Nat} {e : Int} {a : Accuracy} (hlong : 52 ≤ m.log2 ∨ e ≤ -1074)
    (h : Locates (.ofMantissaAndAccuracy m a) v) {t : Int} (ht : t = max ((m.log2 : Int) + e - 52) (-1074)) :
    (2 ^ (t + 52) ≤ v * 2 ^ e ∨ t = -1074) ∧ v * 2 ^ e < 2 ^ (t + 53) := by
  obtain ⟨hmv, hvm⟩ := h.bounds
  rw [mantissa_ofMantissaAndAccuracy] at hmv hvm
  constructor
  · rcases eq_or_ne t (-1074) with hmin | hmin
    · exact .inr hmin
    · left
      have hm : 0 < m := by
        by_contra hzero
        rw [Nat.eq_zero_of_not_pos hzero, Nat.log2_zero] at hlong ht
        omega
      calc (2 : Rat) ^ (t + 52) = 2 ^ (m.log2 : Int) * 2 ^ e := by
            rw [← zpow_add₀ two_ne_zero]
            congr 1
            omega
        _ ≤ v * 2 ^ e := mul_le_mul_of_nonneg_right ((zpow_le_of_log2 hm).trans hmv) (two_zpow_pos e).le
  · calc v * 2 ^ e < 2 ^ ((m.log2 : Int) + 1) * 2 ^ e :=
          mul_lt_mul_of_pos_right (hvm.trans_le (lt_zpow_of_log2 m)) (two_zpow_pos e)
      _ = 2 ^ ((m.log2 : Int) + 1 + e) := (zpow_add₀ two_ne_zero _ _).symm
      _ ≤ 2 ^ (t + 53) := zpow_le_zpow_right₀ one_le_two (by omega)

/-- A significand with enough bits is rounded as the exact number. -/
theorem exists_roundsTo_roundWithAccuracy (s : Sign) {m : Nat} {e : Int} {a : Accuracy}
    (hlong : 52 ≤ m.log2 ∨ e ≤ -1074) (h : Locates (.ofMantissaAndAccuracy m a) v)
    (hmax : v * 2 ^ e ≤ largest) :
    ∃ t R, RoundsTo t (v * 2 ^ e) R ∧
      value? (Float.Model.pack (roundWithAccuracy Format.binary64 s m e a)).unpack =
        some ((s.apply R : Int) * (2 : Rat) ^ t) := by
  obtain ⟨t, ht⟩ : ∃ t, t = max ((m.log2 : Int) + e - 52) (-1074) := ⟨_, rfl⟩
  obtain ⟨em, hshift, hem⟩ := locates_shiftToTargetExponent hlong h ht
  obtain ⟨hlower, hupper⟩ := size_of_locates hlong h ht
  have hpos := two_zpow_pos t
  -- the exact number in units of the last place
  obtain ⟨w, hw⟩ : ∃ w, w = v * 2 ^ (e - t) := ⟨_, rfl⟩
  have hwt : w * 2 ^ t = v * 2 ^ e := by
    rw [hw, mul_assoc, ← zpow_add₀ two_ne_zero, sub_add_cancel]
  rw [← hw] at hem
  have hfull (n : Nat) : (2 : Rat) ^ (t + n) = (2 ^ n : Nat) * 2 ^ t := by
    rw [add_comm, zpow_add₀ two_ne_zero, zpow_natCast]
    push_cast
    rfl
  have hR : em.roundedMantissa ≤ 2 ^ 53 := by
    refine hem.roundedMantissa_le (le_of_mul_le_mul_right ?_ hpos)
    rw [hwt, ← hfull]
    exact hupper.le
  have hlongR : 2 ^ 52 ≤ em.roundedMantissa ∨ t = -1074 := by
    refine hlower.imp_left fun hlower => hem.le_roundedMantissa (le_of_mul_le_mul_right ?_ hpos)
    rw [hwt, ← hfull]
    exact hlower
  have htmax : t ≤ 970 ∨ t = 971 ∧ em.roundedMantissa < 2 ^ 53 := by
    rcases hlower with hlower | rfl
    · have hlt := (zpow_lt_zpow_iff_right₀ (one_lt_two (α := Rat))).1 (hlower.trans_lt (hmax.trans_lt largest_lt))
      refine or_iff_not_imp_left.2 fun ht => ?_
      obtain rfl : t = 971 := by omega
      rw [← hwt] at hmax
      exact ⟨rfl, Nat.lt_of_le_pred (by decide)
        (hem.roundedMantissa_le (le_of_mul_le_mul_right hmax hpos))⟩
    · exact .inl (by decide)
  refine ⟨t, em.roundedMantissa, ⟨hlower, hupper, ?_⟩, ?_⟩
  · rw [← hwt, ← sub_mul, abs_mul, abs_of_pos hpos, zpow_sub_one₀ two_ne_zero, mul_comm]
    exact mul_le_mul_of_nonneg_left (hem.near.trans_eq (one_div 2)) hpos.le
  · unfold roundWithAccuracy
    simp only [hshift]
    exact value?_pack_rounded s hR (by omega) htmax hlongR

theorem log2_mul_two_pow {m : Nat} (hm : 0 < m) (k : Nat) : (m * 2 ^ k).log2 = m.log2 + k := by
  have hbounds := (Nat.log2_eq_iff hm.ne').1 rfl
  have hpow := Nat.two_pow_pos k
  refine (Nat.log2_eq_iff (by positivity)).2 ⟨?_, ?_⟩
  · rw [pow_add]
    exact Nat.mul_le_mul_right _ hbounds.1
  · rw [show m.log2 + k + 1 = m.log2 + 1 + k by omega, pow_add]
    exact Nat.mul_lt_mul_of_pos_right hbounds.2 hpow

/-- A significand of any length is rounded as the number that it stands for. -/
theorem exists_roundsTo_round (s : Sign) {m : Nat} {e : Int} (hm : 0 < m)
    (hmax : (m : Rat) * 2 ^ e ≤ largest) :
    ∃ t R, RoundsTo t ((m : Rat) * 2 ^ e) R ∧
      value? (Float.Model.pack (UnpackedFloat.round Format.binary64 s m e)).unpack =
        some ((s.apply R : Int) * (2 : Rat) ^ t) := by
  obtain ⟨k, hk⟩ : ∃ k, k = (e - Format.binary64.targetExponent (totalExponent m e)).toNat := ⟨_, rfl⟩
  have htarget : Format.binary64.targetExponent (totalExponent m e) =
      max ((m.log2 : Int) + 1 + e - 53) (-1074) := rfl
  have hround : UnpackedFloat.round Format.binary64 s m e =
      roundWithAccuracy Format.binary64 s (m * 2 ^ k) (e - k) .exact := by
    rw [← Nat.shiftLeft_eq, hk]
    rfl
  have hlong : 52 ≤ (m * 2 ^ k).log2 ∨ e - k ≤ -1074 := by
    rw [log2_mul_two_pow hm]
    omega
  have hvalue : ((m * 2 ^ k : Nat) : Rat) * 2 ^ (e - k : Int) = m * 2 ^ e := by
    rw [zpow_sub₀ two_ne_zero, zpow_natCast]
    push_cast
    field_simp
  have hrounds := exists_roundsTo_roundWithAccuracy s hlong (locates_exact (m * 2 ^ k)) (by rwa [hvalue])
  rwa [hvalue, ← hround] at hrounds

/-! ### Numbers that need no rounding -/

section

variable {t : Int} {x : Rat} {R M : Nat} {e n : Int}

/-- A dyadic number as a multiple of a smaller power of two. -/
theorem natCast_mul_zpow (M : Nat) (h : t ≤ e) :
    (M : Rat) * 2 ^ e = (M * 2 ^ (e - t).toNat : Nat) * 2 ^ t := by
  rw [Nat.cast_mul, Nat.cast_pow, Nat.cast_ofNat, mul_assoc, ← zpow_natCast, ← zpow_add₀ two_ne_zero,
    show ((e - t).toNat : Int) + t = e by omega]

theorem half_zpow (t : Int) : (2 : Rat) ^ (t - 1) * 2 = 2 ^ t := by
  rw [zpow_sub_one₀ two_ne_zero, mul_assoc, inv_mul_cancel₀ two_ne_zero, mul_one]

/-- Rounding does not go beyond a number that needs no rounding. -/
theorem RoundsTo.le_dyadic (h : RoundsTo t x R) (ht : t ≤ e) (hx : x ≤ M * 2 ^ e) :
    (R : Rat) * 2 ^ t ≤ M * 2 ^ e := by
  rw [natCast_mul_zpow M ht] at hx ⊢
  have hnear := (abs_le.1 h.near).2
  have hhalf := half_zpow t
  have hpos := two_zpow_pos (t - 1)
  have hlt : (R : Rat) < (M * 2 ^ (e - t).toNat + 1 : Nat) := by
    refine lt_of_mul_lt_mul_right ?_ (two_zpow_pos t).le
    rw [Nat.cast_succ, add_mul, one_mul]
    linarith
  refine mul_le_mul_of_nonneg_right ?_ (two_zpow_pos t).le
  exact_mod_cast Nat.le_of_lt_succ (by exact_mod_cast hlt)

theorem RoundsTo.dyadic_le (h : RoundsTo t x R) (ht : t ≤ e) (hx : M * 2 ^ e ≤ x) :
    M * 2 ^ e ≤ (R : Rat) * 2 ^ t := by
  rw [natCast_mul_zpow M ht] at hx ⊢
  have hnear := (abs_le.1 h.near).1
  have hhalf := half_zpow t
  have hpos := two_zpow_pos (t - 1)
  have hlt : ((M * 2 ^ (e - t).toNat : Nat) : Rat) < (R + 1 : Nat) := by
    refine lt_of_mul_lt_mul_right ?_ (two_zpow_pos t).le
    rw [Nat.cast_succ, add_mul, one_mul]
    linarith
  refine mul_le_mul_of_nonneg_right ?_ (two_zpow_pos t).le
  exact_mod_cast Nat.le_of_lt_succ (by exact_mod_cast hlt)

/-- The distance of the floating-point numbers, from a bound of the size. -/
theorem RoundsTo.exponent_lt (h : RoundsTo t x R) (hx : x < 2 ^ n) (hn : -1022 < n) : t + 52 < n := by
  rcases h.lower with hlower | rfl
  · exact (zpow_lt_zpow_iff_right₀ (one_lt_two (α := Rat))).1 (hlower.trans_lt hx)
  · omega

theorem RoundsTo.lt_exponent (h : RoundsTo t x R) (hx : 2 ^ n ≤ x) : n < t + 53 :=
  (zpow_lt_zpow_iff_right₀ (one_lt_two (α := Rat))).1 (hx.trans_lt h.upper)

/-- A natural number that is not too large needs no rounding. -/
theorem RoundsTo.natCast_le (h : RoundsTo t x R) {n : Nat} (hn : n ≤ 2 ^ 53) (hx : n ≤ x) :
    n ≤ (R : Rat) * 2 ^ t := by
  by_cases ht : t ≤ 0
  · have hle := h.dyadic_le (M := n) (e := 0) ht (by rwa [zpow_zero, mul_one])
    rwa [zpow_zero, mul_one] at hle
  · -- above `2 ^ 53` not all natural numbers are floating-point numbers, but all are smaller
    have hlower : 2 ^ (t + 52) ≤ x := h.lower.resolve_right (by omega)
    have hfull : ((2 ^ 52 : Nat) : Rat) * 2 ^ t = 2 ^ (t + 52) := by
      rw [add_comm t, zpow_add₀ two_ne_zero]
      norm_num
    calc (n : Rat) ≤ (2 : Rat) ^ (53 : Int) := by exact_mod_cast hn
      _ ≤ 2 ^ (t + 52) := zpow_le_zpow_right₀ one_le_two (by omega)
      _ = (2 ^ 52 : Nat) * 2 ^ t := hfull.symm
      _ ≤ R * 2 ^ t := h.dyadic_le le_rfl (hfull ▸ hlower)

theorem RoundsTo.le_natCast (h : RoundsTo t x R) {n : Nat} (hn : n ≤ 2 ^ 53) (hx : x ≤ n) :
    (R : Rat) * 2 ^ t ≤ n := by
  by_cases ht : t ≤ 0
  · have hle := h.le_dyadic (M := n) (e := 0) ht (by rwa [zpow_zero, mul_one])
    rwa [zpow_zero, mul_one] at hle
  · have hlower : 2 ^ (t + 52) ≤ x := h.lower.resolve_right (by omega)
    have hle : (2 : Rat) ^ (t + 52) ≤ n := hlower.trans hx
    have ht1 := (zpow_le_zpow_iff_right₀ (one_lt_two (α := Rat))).1
      (hle.trans (show (n : Rat) ≤ 2 ^ (53 : Int) by exact_mod_cast hn))
    obtain rfl : t = 1 := by omega
    obtain rfl : n = 2 ^ 53 := le_antisymm hn (by exact_mod_cast hle)
    have hlargest : ((2 ^ 53 : Nat) : Rat) = (2 ^ 52 : Nat) * 2 ^ (1 : Int) := by norm_num
    rw [hlargest] at hx ⊢
    exact h.le_dyadic le_rfl hx

theorem RoundsTo.eq_natCast {n : Nat} (h : RoundsTo t n R) (hn : n ≤ 2 ^ 53) : (R : Rat) * 2 ^ t = n :=
  le_antisymm (h.le_natCast hn le_rfl) (h.natCast_le hn le_rfl)

end

end MathExpr.Real
