import MathExpr.Proofs.Rounding

/-!
# Exact floating-point arithmetic

Sums, differences and products of integers are exact as long as they are not larger than
`2 ^ 53` (`Real.int?_add`, `Real.int?_sub`, `Real.int?_mul`): they need no rounding.
Numbers are compared by the rational numbers that they are.
-/

namespace MathExpr.Real

open Float.Model (Format UnpackedFloat)
open Float.Model.UnpackedFloat (Sign roundWithAccuracy)

/-! ### Values -/

/-- The sizes of two equal numbers. -/
theorem natAbs_mul_zpow {A e n : Int} (h : (A : Rat) * 2 ^ e = n) :
    (A.natAbs : Rat) * 2 ^ e = n.natAbs := by
  have habs := congrArg abs h
  have hpos : (0 : Rat) < 2 ^ e := by positivity
  rw [abs_mul, abs_of_pos hpos, ← Int.cast_abs, Int.abs_eq_natAbs, ← Int.cast_abs,
    Int.abs_eq_natAbs, Int.cast_natCast, Int.cast_natCast] at habs
  exact habs

/-- Where no bits are cut off, the integer part of a number is the number. -/
theorem mul_zpow_eq {m : Nat} {e : Int} (h : 0 ≤ e ∨ m % 2 ^ (-e).toNat = 0) :
    (m : Rat) * 2 ^ e = (if 0 ≤ e then m * 2 ^ e.toNat else m / 2 ^ (-e).toNat : Nat) := by
  by_cases he : 0 ≤ e
  · rw [if_pos he, zpow_of_nonneg he]
    push_cast
    rfl
  · rw [if_neg he, zpow_toNat (by omega), mul_one_div]
    rw [or_iff_right he] at h
    rw [Nat.cast_div (Nat.dvd_of_mod_eq_zero h) (by positivity)]
    push_cast
    rfl

/-- A number that is an integer has no bits to cut off. -/
theorem mod_eq_zero_of_mul_zpow {m : Nat} {e : Int} {N : Nat} (h : (m : Rat) * 2 ^ e = N) :
    0 ≤ e ∨ m % 2 ^ (-e).toNat = 0 := by
  by_cases he : 0 ≤ e
  · exact .inl he
  · rw [zpow_toNat (by omega), mul_one_div, div_eq_iff (by positivity)] at h
    have hm : m = N * 2 ^ (-e).toNat := by exact_mod_cast h
    rw [hm]
    exact .inr (Nat.mul_mod_left _ _)

/-- The integer that an unpacked number is, is its value. -/
theorem int?_ofUnpacked_eq_some {u : UnpackedFloat} {n : Int} :
    (Binary.ofUnpacked u).int? = some n ↔ value? u = some (n : Rat) := by
  cases u with
  | infinity s => exact iff_of_false (fun h => by cases h) (fun h => by cases h)
  | notANumber => exact iff_of_false (fun h => by cases h) (fun h => by cases h)
  | zero s =>
      show (Binary.finite _ 0 _).int? = some n ↔ some 0 = some (n : Rat)
      rw [Binary.int?_zero, Option.some_inj, Option.some_inj]
      exact_mod_cast Iff.rfl
  | finite s m e hm =>
      show (if 0 ≤ e ∨ m % 2 ^ (-e).toNat = 0 then some (truncOf (s == .negative) m e) else none) =
        some n ↔ some _ = some (n : Rat)
      rw [Option.some_inj]
      by_cases hexact : 0 ≤ e ∨ m % 2 ^ (-e).toNat = 0
      · rw [if_pos hexact, Option.some_inj, apply_mul_eq (mul_zpow_eq hexact)]
        have htrunc : truncOf (s == .negative) m e =
            s.apply (if 0 ≤ e then m * 2 ^ e.toNat else m / 2 ^ (-e).toNat : Nat) := by
          cases s <;> rfl
        rw [htrunc]
        exact_mod_cast Iff.rfl
      · rw [if_neg hexact]
        refine iff_of_false (fun h => by cases h) fun h => hexact ?_
        have habs := natAbs_mul_zpow h
        rw [natAbs_apply] at habs
        exact mod_eq_zero_of_mul_zpow habs

theorem int?_eq_some {x : Float} {n : Int} :
    int? x = some n ↔ value? x.toModel.unpack = some (n : Rat) := by
  rw [int?_eq, Binary.of_eq]
  exact int?_ofUnpacked_eq_some

/-! ### Rounding integers -/

/-- A number that is an integer, without powers of two that are divided out. -/
theorem eq_mul_of_mul_zpow {m N : Nat} {e : Int} (h : (m : Rat) * 2 ^ e = N) :
    (0 ≤ e ∧ N = m * 2 ^ e.toNat) ∨ (e < 0 ∧ m = N * 2 ^ (-e).toNat) := by
  rcases le_or_gt 0 e with he | he
  · rw [zpow_of_nonneg he] at h
    exact .inl ⟨he, by exact_mod_cast h.symm⟩
  · rw [zpow_toNat he, mul_one_div, div_eq_iff (by positivity)] at h
    exact .inr ⟨he, by exact_mod_cast h⟩

theorem log2_add_eq {m N : Nat} {e : Int} (hm : 0 < m) (h : (m : Rat) * 2 ^ e = N) :
    (m.log2 : Int) + e = N.log2 := by
  rcases eq_mul_of_mul_zpow h with ⟨he, rfl⟩ | ⟨he, rfl⟩
  · rw [log2_mul_two_pow hm]
    omega
  · rw [log2_mul_two_pow (Nat.pos_of_mul_pos_right hm)]
    omega

/-- What is no larger than `2 ^ 53` is not too large for being rounded. -/
theorem le_largest_of_le {q : Rat} {N : Nat} (h : q = N) (hN : N ≤ 2 ^ 53) : q ≤ largest := by
  rw [h]
  refine le_largest ?_
  calc (N : Rat) ≤ 2 ^ (53 : Int) := by exact_mod_cast hN
    _ ≤ 2 ^ (1023 : Int) := zpow_le_zpow_right₀ one_le_two (by decide)

/-- Rounding a long significand is exact if it stands for an integer that is not too large. -/
theorem value?_roundWithAccuracy_of_le (s : Sign) {m N : Nat} {e : Int} (hm : 52 ≤ m.log2)
    (h : (m : Rat) * 2 ^ e = N) (hN : N ≤ 2 ^ 53) :
    value? (Float.Model.pack (roundWithAccuracy Format.binary64 s m e .exact)).unpack =
      some ((s.apply N : Int) : Rat) := by
  obtain ⟨t, R, hrounds, hvalue⟩ :=
    exists_roundsTo_roundWithAccuracy s (.inl hm) (locates_exact m) (le_largest_of_le h hN)
  rw [h] at hrounds
  rw [hvalue, apply_mul_eq (hrounds.eq_natCast hN)]

/-- Rounding is exact for an integer that is not too large. -/
theorem value?_round (s : Sign) {m N : Nat} {e : Int} (hm : 0 < m) (h : (m : Rat) * 2 ^ e = N)
    (hN : N ≤ 2 ^ 53) :
    value? (Float.Model.pack (UnpackedFloat.round Format.binary64 s m e)).unpack =
      some ((s.apply N : Int) : Rat) := by
  obtain ⟨t, R, hrounds, hvalue⟩ := exists_roundsTo_round s hm (le_largest_of_le h hN)
  rw [h] at hrounds
  rw [hvalue, apply_mul_eq (hrounds.eq_natCast hN)]

theorem normalize_of_pos {A : Int} (hA : 0 < A) (e : Int) (s : Sign) :
    UnpackedFloat.normalize Format.binary64 A e s = UnpackedFloat.round Format.binary64 .positive A.toNat e := by
  unfold UnpackedFloat.normalize
  rw [Int.compare_eq_gt.2 hA]

/-- Normalizing is exact for an integer that is not too large. -/
theorem value?_normalize {A e n : Int} (s : Sign) (h : (A : Rat) * 2 ^ e = n)
    (hn : n.natAbs ≤ 2 ^ 53) :
    value? (Float.Model.pack (UnpackedFloat.normalize Format.binary64 A e s)).unpack = some (n : Rat) := by
  have habs := natAbs_mul_zpow h
  have hpos : (0 : Rat) < 2 ^ e := by positivity
  rcases lt_trichotomy A 0 with hA | rfl | hA
  · have hnormal : UnpackedFloat.normalize Format.binary64 A e s =
        UnpackedFloat.round Format.binary64 .negative A.natAbs e := by
      unfold UnpackedFloat.normalize
      rw [Int.compare_eq_lt.2 hA]
      show UnpackedFloat.round _ _ (-A).toNat e = _
      rw [show (-A).toNat = A.natAbs by omega]
    have hsign : n < 0 := by
      have : (n : Rat) < 0 := by
        rw [← h]
        exact mul_neg_of_neg_of_pos (by exact_mod_cast hA) hpos
      exact_mod_cast this
    rw [hnormal, value?_round .negative (by omega) habs hn]
    show some ((-(n.natAbs : Int) : Int) : Rat) = _
    rw [show -(n.natAbs : Int) = n by omega]
  · have hzero : n = 0 := by
      rw [Int.cast_zero, zero_mul] at h
      exact_mod_cast h.symm
    have hnormal : UnpackedFloat.normalize Format.binary64 0 e s = .zero s := rfl
    rw [hzero, hnormal, value?_pack_zero]
  · have hsign : 0 < n := by
      have : (0 : Rat) < n := by
        rw [← h]
        exact mul_pos (by exact_mod_cast hA) hpos
      exact_mod_cast this
    rw [normalize_of_pos hA, show A.toNat = A.natAbs by omega, value?_round .positive (by omega) habs hn]
    show some (((n.natAbs : Int) : Int) : Rat) = _
    rw [show (n.natAbs : Int) = n by omega]

/-! ### Sums, differences and products -/

/-- A finite number has a significand of full length, or it has the smallest exponent. -/
theorem finite_cases {x : Float} {s : Sign} {m : Nat} {e : Int} {hm : 0 < m}
    (hx : x.toModel.unpack = .finite s m e hm) :
    (m.log2 = 52 ∧ -1074 ≤ e ∧ e ≤ 971) ∨ (m < 2 ^ 52 ∧ e = -1074) := by
  have hshape := Binary.ofUnpacked_unpack x.toModel.toBits.toBitVec
  have hmantissa := (@UnpackedFloat.unpackMantissa Format.binary64 x.toModel.toBits.toBitVec).isLt
  have hexponent := (@UnpackedFloat.unpackExponent Format.binary64 x.toModel.toBits.toBitVec).isLt
  change _ < 2 ^ 52 at hmantissa
  change _ < 2 ^ 11 at hexponent
  change Binary.ofUnpacked x.toModel.unpack = _ at hshape
  rw [hx] at hshape
  unfold Binary.ofFields at hshape
  split at hshape
  · split at hshape <;> cases hshape
  · split at hshape
    · injection hshape with _ hmantissaEq hexponentEq
      exact .inr ⟨by omega, by omega⟩
    · injection hshape with _ hmantissaEq hexponentEq
      rw [Int.ofNat_eq_natCast] at hexponentEq
      exact .inl ⟨(Nat.log2_eq_iff hm.ne').2 ⟨by omega, by omega⟩, by omega, by omega⟩

/-- A number that is an integer is zero, or it has a significand of full length. -/
theorem unpack_cases {x : Float} {n : Int} (h : int? x = some n) :
    (∃ s, x.toModel.unpack = .zero s ∧ n = 0) ∨
      ∃ s m e hpos, x.toModel.unpack = .finite s m e hpos ∧ m.log2 = 52 ∧ -1074 ≤ e ∧ e ≤ 971 ∧
        ((s.apply m : Int) : Rat) * 2 ^ e = n := by
  have hvalue := int?_eq_some.1 h
  cases hx : x.toModel.unpack with
  | infinity s =>
      rw [hx] at hvalue
      cases hvalue
  | notANumber =>
      rw [hx] at hvalue
      cases hvalue
  | zero s =>
      rw [hx] at hvalue
      exact .inl ⟨s, rfl, by exact_mod_cast (Option.some.inj hvalue).symm⟩
  | finite s m e hpos =>
      rw [hx] at hvalue
      have hvalue : ((s.apply m : Int) : Rat) * 2 ^ e = n := Option.some.inj hvalue
      rcases finite_cases hx with ⟨hlog, hmin, hmax⟩ | ⟨hshort, rfl⟩
      · exact .inr ⟨s, m, e, hpos, rfl, hlog, hmin, hmax, hvalue⟩
      · -- a number that is not normal is too small to be an integer
        exfalso
        have habs := natAbs_mul_zpow hvalue
        rw [natAbs_apply] at habs
        obtain ⟨hmin, -⟩ | ⟨-, hmul⟩ := eq_mul_of_mul_zpow habs
        · exact absurd hmin (by decide)
        · have hn : 0 < n.natAbs := by
            by_contra hzero
            rw [Nat.eq_zero_of_not_pos hzero, Nat.zero_mul] at hmul
            exact hpos.ne' hmul
          have hlarge : 2 ^ 52 ≤ m := by
            rw [hmul]
            exact (Nat.pow_le_pow_right (by decide) (by decide)).trans (Nat.le_mul_of_pos_left _ hn)
          exact absurd hlarge hshort.not_ge

/-- The largest number has less than 1025 bits. -/
theorem natAbs_lt_of_int? {x : Float} {n : Int} (h : int? x = some n) :
    (n.natAbs : Rat) < 2 ^ (1024 : Int) := by
  rcases unpack_cases h with ⟨s, -, rfl⟩ | ⟨s, m, e, hm, -, hlog, -, hmax, hvalue⟩
  · exact zpow_pos two_pos _
  · have habs := natAbs_mul_zpow hvalue
    rw [natAbs_apply] at habs
    calc (n.natAbs : Rat) = m * 2 ^ e := habs.symm
      _ < 2 ^ (53 : Int) * 2 ^ e := mul_lt_mul_of_pos_right (by
          exact_mod_cast ((Nat.log2_eq_iff hm.ne').1 hlog).2) (two_zpow_pos e)
      _ = 2 ^ (53 + e) := (zpow_add₀ two_ne_zero _ _).symm
      _ ≤ 2 ^ (1024 : Int) := zpow_le_zpow_right₀ one_le_two (by omega)

/-- A number that is brought to a smaller exponent. -/
theorem apply_shiftLeft (s : Sign) (m : Nat) {e e' : Int} (h : e' ≤ e) :
    ((s.apply (m <<< (e - e').toNat : Nat) : Int) : Rat) * 2 ^ e' = (s.apply m : Int) * 2 ^ e := by
  refine apply_mul_eq_mul ?_
  have hsplit : (2 : Rat) ^ e = 2 ^ (e - e').toNat * 2 ^ e' := by
    rw [← zpow_natCast, ← zpow_add₀ (by norm_num)]
    congr 1
    omega
  rw [Nat.shiftLeft_eq, hsplit]
  push_cast
  ring

variable {x y : Float} {a b : Int}

/-- The sum of two integers is exact if it is not too large. -/
theorem int?_add (hx : int? x = some a) (hy : int? y = some b) (hab : (a + b).natAbs ≤ 2 ^ 53) :
    int? (x + y) = some (a + b) := by
  have hunpack : (x + y).toModel = Float.Model.pack
      (UnpackedFloat.add Format.binary64 x.toModel.unpack y.toModel.unpack) := rfl
  rw [int?_eq_some, hunpack]
  rcases unpack_cases hx with ⟨s, hxs, rfl⟩ | ⟨s, m, e, hm, hxs, hmlog, hmin, hmax, ha⟩ <;>
    rcases unpack_cases hy with ⟨s', hys, rfl⟩ | ⟨s', m', e', hm', hys, hmlog', hmin', hmax', hb⟩
  · rw [hxs, hys]
    cases s <;> cases s' <;> rfl
  · rw [hxs, hys, zero_add, ← hb]
    show value? (Float.Model.pack (.finite s' m' e' hm')).unpack = _
    rw [unpack_pack s' hmlog' hmin' hmax']
    rfl
  · rw [hxs, hys, add_zero, ← ha]
    show value? (Float.Model.pack (.finite s m e hm)).unpack = _
    rw [unpack_pack s hmlog hmin hmax]
    rfl
  · rw [hxs, hys]
    refine value?_normalize .positive ?_ hab
    rw [Int.cast_add, Int.cast_add, add_mul, apply_shiftLeft s m (min_le_left e e'), ha,
      apply_shiftLeft s' m' (min_le_right e e'), hb]

theorem apply_neg (s : Sign) (m : Nat) : (-s).apply m = -s.apply m := by
  cases s
  · exact (neg_neg (m : Int)).symm
  · rfl

theorem apply_mul_apply (s s' : Sign) (m m' : Nat) :
    (s * s').apply (m * m' : Nat) = s.apply m * s'.apply m' := by
  rw [Nat.cast_mul]
  cases s <;> cases s'
  · exact (neg_mul_neg (m : Int) m').symm
  · exact (neg_mul (m : Int) m').symm
  · exact (mul_neg (m : Int) m').symm
  · rfl

/-- The opposite of an integer is exact. -/
theorem int?_neg (hx : int? x = some a) : int? (-x) = some (-a) := by
  have hunpack : (-x).toModel = Float.Model.pack (UnpackedFloat.neg x.toModel.unpack) := rfl
  rw [int?_eq_some, hunpack]
  rcases unpack_cases hx with ⟨s, hxs, rfl⟩ | ⟨s, m, e, hm, hxs, hmlog, hmin, hmax, ha⟩
  · rw [hxs]
    exact value?_pack_zero (-s)
  · rw [hxs]
    show value? (Float.Model.pack (.finite (-s) m e hm)).unpack = _
    rw [unpack_pack (-s) hmlog hmin hmax]
    show some (((-s).apply m : Int) * (2 : Rat) ^ e) = _
    rw [apply_neg, Int.cast_neg, neg_mul, ha, Int.cast_neg]

/-- The difference of two integers is exact if it is not too large. -/
theorem int?_sub (hx : int? x = some a) (hy : int? y = some b) (hab : (a - b).natAbs ≤ 2 ^ 53) :
    int? (x - y) = some (a - b) := by
  have hunpack : (x - y).toModel = Float.Model.pack
      (UnpackedFloat.sub Format.binary64 x.toModel.unpack y.toModel.unpack) := rfl
  rw [int?_eq_some, hunpack]
  rcases unpack_cases hx with ⟨s, hxs, rfl⟩ | ⟨s, m, e, hm, hxs, hmlog, hmin, hmax, ha⟩ <;>
    rcases unpack_cases hy with ⟨s', hys, rfl⟩ | ⟨s', m', e', hm', hys, hmlog', hmin', hmax', hb⟩
  · rw [hxs, hys]
    cases s <;> cases s' <;> rfl
  · rw [hxs, hys, zero_sub, Int.cast_neg, ← hb, ← neg_mul, ← Int.cast_neg, ← apply_neg]
    show value? (Float.Model.pack (.finite (-s') m' e' hm')).unpack = _
    rw [unpack_pack (-s') hmlog' hmin' hmax']
    rfl
  · rw [hxs, hys, sub_zero, ← ha]
    show value? (Float.Model.pack (.finite s m e hm)).unpack = _
    rw [unpack_pack s hmlog hmin hmax]
    rfl
  · rw [hxs, hys]
    refine value?_normalize .positive ?_ hab
    rw [Int.cast_sub, Int.cast_sub, sub_mul, apply_shiftLeft s m (min_le_left e e'), ha,
      apply_shiftLeft s' m' (min_le_right e e'), hb]

/-- A product has as many bits as a factor. -/
theorem le_log2_mul {m m' : Nat} (hm : 0 < m) (hm' : 0 < m') (hlog : m.log2 = 52) : 52 ≤ (m * m').log2 := by
  rw [Nat.le_log2 (Nat.mul_pos hm hm').ne']
  exact ((Nat.log2_eq_iff hm.ne').1 hlog).1.trans (Nat.le_mul_of_pos_right m hm')

/-- The product of two integers is exact if it is not too large. -/
theorem int?_mul (hx : int? x = some a) (hy : int? y = some b) (hab : (a * b).natAbs ≤ 2 ^ 53) :
    int? (x * y) = some (a * b) := by
  have hunpack : (x * y).toModel = Float.Model.pack
      (UnpackedFloat.mul Format.binary64 x.toModel.unpack y.toModel.unpack) := rfl
  rw [int?_eq_some, hunpack]
  rcases unpack_cases hx with ⟨s, hxs, rfl⟩ | ⟨s, m, e, hm, hxs, hmlog, hmin, hmax, ha⟩ <;>
    rcases unpack_cases hy with ⟨s', hys, rfl⟩ | ⟨s', m', e', hm', hys, hmlog', hmin', hmax', hb⟩
  · rw [hxs, hys]
    cases s <;> cases s' <;> rfl
  · rw [hxs, hys, zero_mul]
    exact value?_pack_zero (s * s')
  · rw [hxs, hys, mul_zero]
    exact value?_pack_zero (s * s')
  · have hvalue : (((s * s').apply (m * m' : Nat) : Int) : Rat) * 2 ^ (e + e') = (a * b : Int) := by
      rw [apply_mul_apply, Int.cast_mul, Int.cast_mul, zpow_add₀ (by norm_num), ← ha, ← hb]
      ring
    have habs := natAbs_mul_zpow hvalue
    rw [natAbs_apply] at habs
    rw [hxs, hys]
    show value? (Float.Model.pack (roundWithAccuracy Format.binary64 (s * s') (m * m') (e + e')
      .exact)).unpack = _
    rw [value?_roundWithAccuracy_of_le (s * s') (le_log2_mul hm hm' hmlog) habs hab, ← hvalue,
      apply_mul_eq habs]

theorem int?_toFloat (n : UInt64) (hn : n.toNat ≤ 2 ^ 53) : int? n.toFloat = some (n.toNat : Int) := by
  rw [int?_eq_some]
  exact value?_normalize .positive (by rw [zpow_zero, mul_one]) (by rwa [Int.natAbs_natCast])

/-- A natural number is exact if it is not too large. -/
theorem int?_ofNat {n : Nat} (hn : n ≤ 2 ^ 53) : int? (Float.ofNat n) = some (n : Int) := by
  rcases Nat.lt_or_eq_of_le hn with hlt | rfl
  · have hsmall : n.toUInt64.toNat = n := by
      show n % 2 ^ 64 = n
      omega
    have hone : int? Float.exactlyRepresentablePowersOfTen[0] = some 1 := by decide +kernel
    have hmul := int?_mul (int?_toFloat n.toUInt64 (by rwa [hsmall])) hone (by simpa [hsmall] using hn)
    rw [hsmall, mul_one] at hmul
    unfold Float.ofNat
    show int? (Float.ofScientific n false 0) = _
    unfold Float.ofScientific
    rw [dif_pos ⟨hlt, by decide⟩]
    exact hmul
  · decide +kernel

/-! ### Equal integers -/

variable {n : Int}

/-- A significand of full length, its sign and its exponent are determined by the value. -/
theorem eq_of_apply_mul_zpow {s s' : Sign} {m m' : Nat} {e e' : Int} (hm : m.log2 = 52)
    (hm' : m'.log2 = 52) (h : ((s.apply m : Int) : Rat) * 2 ^ e = n)
    (h' : ((s'.apply m' : Int) : Rat) * 2 ^ e' = n) : s = s' ∧ m = m' ∧ e = e' := by
  have hpos {k : Nat} (hk : k.log2 = 52) : 0 < k := by
    by_contra hzero
    rw [Nat.eq_zero_of_not_pos hzero] at hk
    exact absurd hk (by decide)
  have habs := natAbs_mul_zpow h
  have habs' := natAbs_mul_zpow h'
  rw [natAbs_apply] at habs habs'
  have he : e = e' := by
    have hlog := log2_add_eq (hpos hm) habs
    have hlog' := log2_add_eq (hpos hm') habs'
    omega
  subst he
  have hne : (2 : Rat) ^ e ≠ 0 := by positivity
  have hmm : m = m' := by exact_mod_cast mul_right_cancel₀ hne (habs.trans habs'.symm)
  subst hmm
  have hsign : s.apply m = s'.apply m := by exact_mod_cast mul_right_cancel₀ hne (h.trans h'.symm)
  have hm0 := hpos hm
  refine ⟨?_, rfl, rfl⟩
  cases s <;> cases s'
  · rfl
  · change -(m : Int) = m at hsign
    omega
  · change (m : Int) = -m at hsign
    omega
  · rfl

/-- Numbers that are the same integer are compared as equal. -/
theorem beq_of_int? (hx : int? x = some n) (hy : int? y = some n) : (x == y) = true := by
  have hne {s : Sign} {m : Nat} {e : Int} (hm : 0 < m) : ((s.apply m : Int) : Rat) * 2 ^ e ≠ 0 := by
    have happly := natAbs_apply s m
    have hzero : s.apply m ≠ 0 := by
      intro hzero
      rw [hzero, Int.natAbs_zero] at happly
      omega
    exact mul_ne_zero (by exact_mod_cast hzero) (by positivity)
  show x.toModel.unpack.beq y.toModel.unpack = true
  rw [UnpackedFloat.beq_iff_ne_notANumber_and_eq]
  rcases unpack_cases hx with ⟨s, hxs, hn⟩ | ⟨s, m, e, hm, hxs, hmlog, -, -, ha⟩ <;>
    rcases unpack_cases hy with ⟨s', hys, hn'⟩ | ⟨s', m', e', hm', hys, hmlog', -, -, hb⟩
  · rw [hxs, hys]
    cases s <;> cases s' <;> simp
  · rw [hn, Int.cast_zero] at hb
    exact absurd hb (hne hm')
  · rw [hn', Int.cast_zero] at ha
    exact absurd ha (hne hm)
  · obtain ⟨rfl, rfl, rfl⟩ := eq_of_apply_mul_zpow hmlog hmlog' ha hb
    rw [hxs, hys]
    simp

end MathExpr.Real
