import MathExpr.Proofs.Quotients
import MathExpr.Value.Range

/-!
# Ranges of integers

A range of integers has the values that one steps through from its start, up to the last one that lies within
it (`Range.stepsThrough_of_int?`), as long as its ends and its length are integers that floating-point numbers
are exact for, and the first value behind the end passes it by enough of a step.

The number of steps is a quotient that is rounded and to which some slack is added before it is cut off. What
is shown is that neither leads to another integer (`Real.floor_rounded`). Not below it, because rounding does
not go beyond an integer. And not up to the next one: if there are few steps (`Real.rounded_lt_of_few`), then
what is missing from the next one is more than the slack; if there are many (`Real.rounded_lt_of_many`), then
a step is short, and what is missing is more than half of the distance of the floating-point numbers there,
which in turn is more than the slack.

Neither condition can be left out (`Range.not_stepsThrough`).
-/

namespace MathExpr

namespace Real

/-! ### The number of steps -/

section

variable {A B R R' : Nat} {t t' : Int} {c : Rat}

/-- A quotient lies before the next natural number by what is left to the next multiple. -/
theorem div_eq_sub (A : Nat) (hB : 0 < B) : (A : Rat) / B = (A / B + 1 : Nat) - (B - A % B : Nat) / B := by
  have hB' : (B : Rat) ≠ 0 := by exact_mod_cast hB.ne'
  have hmod : A % B ≤ B := (Nat.mod_lt A hB).le
  have hsplit : (A : Rat) = B * (A / B : Nat) + (A % B : Nat) := by exact_mod_cast (Nat.div_add_mod A B).symm
  rw [Nat.cast_sub hmod, Nat.cast_succ]
  field_simp
  linarith

/-- The number that lies before `k` by the last of `n` binary places. -/
theorem pred_mul_zpow {k : Nat} (hk : 0 < k) (n : Nat) :
    ((k * 2 ^ n - 1 : Nat) : Rat) * 2 ^ (-n : Int) = k - 1 / 2 ^ n := by
  have hone : 1 ≤ k * 2 ^ n := Nat.mul_pos hk (Nat.two_pow_pos n)
  rw [Nat.cast_sub hone, zpow_neg, zpow_natCast]
  push_cast
  field_simp

/-- If there are few steps, then what is missing from the next one is longer than the slack and what rounding
adds to it. -/
theorem rounded_lt_of_few (hB : 0 < B) (h : RoundsTo t ((A : Rat) / B) R)
    (h' : RoundsTo t' (R * 2 ^ t + c) R') (hc : c < 1 / 2 ^ 33) (hfew : A / B + 1 ≤ 2 ^ 20)
    (hgap : B ≤ 2 ^ 32 * (B - A % B)) :
    (R' : Rat) * 2 ^ t' < (A / B + 1 : Nat) := by
  have hk : 0 < A / B + 1 := Nat.succ_pos _
  have hq := div_eq_sub A hB
  generalize A / B + 1 = k at hfew hk hq ⊢
  have hk20 : (k : Rat) ≤ 2 ^ (20 : Int) := by exact_mod_cast hfew
  have hmissing : (1 : Rat) / 2 ^ 32 ≤ (B - A % B : Nat) / B := by
    rw [div_le_div_iff₀ (by positivity) (by exact_mod_cast hB), one_mul, mul_comm]
    exact_mod_cast hgap
  have hpos : (0 : Rat) < 1 / 2 ^ 32 ∧ (0 : Rat) < 1 / 2 ^ 33 := by constructor <;> positivity
  have hsteps : (R : Rat) * 2 ^ t ≤ k - 1 / 2 ^ 32 := by
    have ht := h.exponent_lt (n := 20) (by linarith) (by decide)
    rw [← pred_mul_zpow hk]
    exact h.le_dyadic (by omega) (by rw [pred_mul_zpow hk]; linarith)
  have hsum : (R : Rat) * 2 ^ t + c ≤ k - 1 / 2 ^ 33 := by linarith
  have ht' := h'.exponent_lt (n := 20) (by linarith) (by decide)
  have hlast : (R' : Rat) * 2 ^ t' ≤ k - 1 / 2 ^ 33 := by
    rw [← pred_mul_zpow hk]
    exact h'.le_dyadic (by omega) (by rw [pred_mul_zpow hk]; exact hsum)
  linarith

/-- If there are many steps, they are short, so that what is missing from the next one is more than half of
the distance of the floating-point numbers. -/
theorem lt_missing {P T : Nat} (hT : 2 ≤ T) (hPT : P * T = 2 ^ 53) (hA : A ≤ 2 ^ 53) (hB : 0 < B)
    (hP : P * B ≤ A) :
    B < T * (B - A % B) := by
  have hmod := Nat.mod_lt A hB
  have hPpos : 0 < P := Nat.pos_of_mul_pos_right (hPT ▸ Nat.two_pow_pos 53)
  have hBT : B ≤ T := Nat.le_of_mul_le_mul_left (by omega) hPpos
  by_contra hle
  -- then one step is as long as can be, and it ends at a multiple
  have hgap : B - A % B = 1 := by
    by_contra hgap
    have := Nat.mul_le_mul_left T (show 2 ≤ B - A % B by omega)
    omega
  rw [hgap, mul_one] at hle
  have hBeq : B = T := by omega
  have hAeq : A = P * B := by
    rw [hBeq] at hP ⊢
    omega
  rw [hAeq, Nat.mul_mod_left] at hgap
  omega

/-- If there are many steps, then the slack is too small to lead to the next one. -/
theorem rounded_lt_of_many (hA : A ≤ 2 ^ 53) (hB : 0 < B) (h : RoundsTo t ((A : Rat) / B) R)
    (h' : RoundsTo t' (R * 2 ^ t + c) R') (hc : c < 1 / 2 ^ 33) (hmany : 2 ^ 20 ≤ A / B) (ht : t ≤ 0) :
    (R' : Rat) * 2 ^ t' < (A / B + 1 : Nat) := by
  have hB' : (0 : Rat) < B := by exact_mod_cast hB
  have hfloor : ((A / B : Nat) : Rat) ≤ A / B := Nat.cast_div_le
  have htmin : -32 ≤ t := by
    have hlow : (2 : Rat) ^ (20 : Int) ≤ A / B := le_trans (by exact_mod_cast hmany) hfloor
    have := h.lt_exponent hlow
    omega
  obtain ⟨i, hi⟩ : ∃ i : Nat, t + 52 = i := ⟨(t + 52).toNat, by omega⟩
  obtain ⟨j, hj⟩ : ∃ j : Nat, 1 - t = j := ⟨(1 - t).toNat, by omega⟩
  have hhalf : (2 : Rat) ^ (t - 1) = 1 / 2 ^ j := by
    rw [show t - 1 = -(j : Int) by omega, zpow_neg, zpow_natCast, one_div]
  -- what is missing from the next step
  have hP : 2 ^ i * B ≤ A := by
    have hlower := h.lower.resolve_right (by omega)
    rw [hi, zpow_natCast, le_div_iff₀ hB'] at hlower
    exact_mod_cast hlower
  have hmissing : (2 : Rat) ^ (t - 1) < (B - A % B : Nat) / B := by
    have hlt := lt_missing (T := 2 ^ j) (Nat.le_self_pow (by omega) 2)
      (by rw [← pow_add, show i + j = 53 by omega]) hA hB hP
    rw [hhalf, div_lt_div_iff₀ (by positivity) hB', one_mul, mul_comm]
    exact_mod_cast hlt
  have hk : A / B + 1 ≤ 2 ^ (i + 1) := by
    have hupper : ((A / B : Nat) : Rat) < 2 ^ (t + 53) := hfloor.trans_lt h.upper
    rw [show t + 53 = (i + 1 : Nat) by omega, zpow_natCast] at hupper
    exact Nat.succ_le_of_lt (by exact_mod_cast hupper)
  have hq := div_eq_sub A hB
  generalize A / B + 1 = k at hk hq ⊢
  -- the next step is one of the floating-point numbers, and the quotient is rounded to one before it
  have hone : (R : Rat) * 2 ^ t + 2 ^ t ≤ k := by
    have hmultiple := natCast_mul_zpow k ht
    rw [zpow_zero, mul_one] at hmultiple
    have hlt : (R : Rat) * 2 ^ t < k := by linarith [(abs_le.1 h.near).2]
    rw [hmultiple] at hlt ⊢
    have hR : R < k * 2 ^ (0 - t).toNat := by exact_mod_cast lt_of_mul_lt_mul_right hlt (two_zpow_pos t).le
    rw [← add_one_mul]
    exact mul_le_mul_of_nonneg_right (by exact_mod_cast hR) (two_zpow_pos t).le
  have hslack : (1 : Rat) / 2 ^ 33 ≤ 2 ^ (t - 1) := by
    rw [hhalf]
    exact one_div_le_one_div_of_le (by positivity) (pow_le_pow_right₀ one_le_two (by omega))
  have htwice := half_zpow t
  have hpos := two_zpow_pos (t - 1)
  have hsum : (R : Rat) * 2 ^ t + c < k - 2 ^ (t - 1) := by linarith
  have hk' : (k : Rat) ≤ 2 ^ (t + 53) := by
    rw [show t + 53 = (i + 1 : Nat) by omega, zpow_natCast]
    exact_mod_cast hk
  have ht' := h'.exponent_lt (n := t + 53) (by linarith) (by omega)
  have hle : (2 : Rat) ^ (t' - 1) ≤ 2 ^ (t - 1) := zpow_le_zpow_right₀ one_le_two (by omega)
  linarith [(abs_le.1 h'.near).2]

/-- The longest range of all has `2 ^ 53` steps of one. -/
theorem rounded_lt_of_longest (hA : A ≤ 2 ^ 53) (hB : 0 < B) (h : RoundsTo t ((A : Rat) / B) R)
    (h' : RoundsTo t' (R * 2 ^ t + c) R') (hc : c < 1 / 2 ^ 33) (ht : 0 < t) :
    (R' : Rat) * 2 ^ t' < (A / B + 1 : Nat) := by
  have hB' : (0 : Rat) < B := by exact_mod_cast hB
  have hlong : (2 : Rat) ^ (53 : Int) ≤ A / B :=
    (zpow_le_zpow_right₀ one_le_two (by omega)).trans (h.lower.resolve_right (by omega))
  have hAB : 2 ^ 53 * B ≤ A := by
    rw [le_div_iff₀ hB'] at hlong
    exact_mod_cast hlong
  obtain rfl : B = 1 := by omega
  obtain rfl : A = 2 ^ 53 := by omega
  rw [Nat.cast_one, div_one] at h
  have hsteps := h.eq_natCast le_rfl
  have hnext : ((2 ^ 53 / 1 + 1 : Nat) : Rat) = (2 ^ 53 : Nat) + 1 := by norm_num
  have hsmall : (1 : Rat) / 2 ^ 33 < 1 / 2 := by norm_num
  have hlarge : ((2 ^ 53 : Nat) : Rat) + 1 < 2 ^ (54 : Int) := by norm_num
  have ht' := h'.exponent_lt (n := 54) (by linarith) (by decide)
  have hnear := (abs_le.1 h'.near).2
  rw [hnext]
  rcases Int.lt_or_eq_of_le (show t' ≤ 1 by omega) with hlt | rfl
  · have hhalf : (2 : Rat) ^ (t' - 1) ≤ 2 ^ (-1 : Int) := zpow_le_zpow_right₀ one_le_two (by omega)
    rw [zpow_neg_one] at hhalf
    linarith
  · -- the next number is an odd one, and there are none of these
    have hlt : (R' : Rat) * 2 ^ (1 : Int) < (2 ^ 52 + 1 : Nat) * 2 ^ (1 : Int) := by
      norm_num at hnear hsteps ⊢
      linarith
    have hR' : R' < 2 ^ 52 + 1 := by exact_mod_cast lt_of_mul_lt_mul_right hlt (two_zpow_pos 1).le
    have hle : (R' : Rat) ≤ (2 ^ 52 : Nat) := by exact_mod_cast Nat.le_of_lt_succ hR'
    calc (R' : Rat) * 2 ^ (1 : Int) ≤ (2 ^ 52 : Nat) * 2 ^ (1 : Int) :=
          mul_le_mul_of_nonneg_right hle (two_zpow_pos 1).le
      _ < (2 ^ 53 : Nat) + 1 := by norm_num

/-- What is rounded lies before the next step. -/
theorem rounded_lt (hA : A ≤ 2 ^ 53) (hB : 0 < B) (h : RoundsTo t ((A : Rat) / B) R)
    (h' : RoundsTo t' (R * 2 ^ t + c) R') (hc : c < 1 / 2 ^ 33) (hgap : B ≤ 2 ^ 32 * (B - A % B)) :
    (R' : Rat) * 2 ^ t' < (A / B + 1 : Nat) := by
  rcases Nat.lt_or_ge (A / B) (2 ^ 20) with hfew | hmany
  · exact rounded_lt_of_few hB h h' hc hfew hgap
  · rcases le_or_gt t 0 with ht | ht
    · exact rounded_lt_of_many hA hB h h' hc hmany ht
    · exact rounded_lt_of_longest hA hB h h' hc ht

/-- The quotient is rounded, and the slack is added, without a change of its integer part. -/
theorem floor_rounded (hA : A ≤ 2 ^ 53) (hB : 0 < B) (h : RoundsTo t ((A : Rat) / B) R)
    (h' : RoundsTo t' (R * 2 ^ t + c) R') (hc0 : 0 < c) (hc : c < 1 / 2 ^ 33)
    (hgap : B ≤ 2 ^ 32 * (B - A % B)) :
    ⌊(R' : Rat) * 2 ^ t'⌋ = (A / B : Nat) := by
  have hsteps : A / B ≤ 2 ^ 53 := (Nat.div_le_self A B).trans hA
  have hlower := h.natCast_le hsteps Nat.cast_div_le
  rw [Int.floor_eq_iff]
  constructor
  · exact_mod_cast h'.natCast_le hsteps (by linarith)
  · exact_mod_cast rounded_lt hA hB h h' hc hgap

end

end Real

/-! ### Ranges of integers -/

namespace Range

open MathExpr.Real (int? value?)
open Float.Model (Format UnpackedFloat)
open Float.Model.UnpackedFloat (Sign)

variable {r : Range} {a b s : Int}

/-- Whether a number lies between the start and the end of a range, if one gets from the one to the other in
the direction of the step. -/
def Within (a b s x : Int) : Prop := if 0 < s then a ≤ x ∧ x ≤ b else b ≤ x ∧ x ≤ a

/-- The values of a range are the start and what follows it step by step; they all lie within the range, and
the next one does not. -/
def StepsThrough (r : Range) (a b s : Int) : Prop :=
  ∃ n : Nat, r.values.map int? = (List.range n).map (fun i : Nat => some (a + i * s)) ∧
    (∀ i < n, Within a b s (a + i * s)) ∧ ¬Within a b s (a + n * s)

/-- As many steps lie within the range as fit into its length, if it goes in the direction of the step. -/
theorem within_iff (hs : s ≠ 0) (i : Nat) :
    Within a b s (a + i * s) ↔ 0 ≤ (b - a) * s ∧ i ≤ (b - a).natAbs / s.natAbs := by
  rw [Nat.le_div_iff_mul_le (Int.natAbs_pos.2 hs)]
  have hsteps : ((i * s.natAbs : Nat) : Int) = i * |s| := by rw [Nat.cast_mul, Int.natCast_natAbs]
  unfold Within
  rcases lt_or_gt_of_ne hs with hneg | hpos
  · rw [if_neg hneg.not_gt, ← neg_mul_neg (b - a), mul_nonneg_iff_of_pos_right (neg_pos.2 hneg)]
    rw [abs_of_neg hneg, mul_neg] at hsteps
    omega
  · rw [if_pos hpos, mul_nonneg_iff_of_pos_right hpos]
    rw [abs_of_pos hpos] at hsteps
    omega

theorem step_ne_zero (hs : int? r.step = some s) (hs0 : s ≠ 0) : (r.step == 0.0) = false := by
  rw [Bool.eq_false_iff]
  intro hzero
  have hint := Real.int?_eq_of_beq hzero
  rw [hs, show int? 0.0 = some 0 by decide +kernel] at hint
  exact hs0 (Option.some.inj hint)

/-- Where the number of steps is negative, there are no values. -/
theorem count_of_lt {p : Rat} (hp : value? ((r.stop - r.start) / r.step).toModel.unpack = some p)
    (hneg : p < 0) :
    r.count = 0 := by
  unfold count
  dsimp only
  rw [if_pos ((Real.lt_zero_iff_of_value? hp).2 hneg), ite_self]

/-- Otherwise the number of steps is rounded down, with some slack. -/
theorem count_of_le (hstep : (r.step == 0.0) = false) {p z : Rat}
    (hp : value? ((r.stop - r.start) / r.step).toModel.unpack = some p) (hnonneg : 0 ≤ p)
    (hz : value? ((r.stop - r.start) / r.step + slack).toModel.unpack = some z) {n : Nat} (hn : ⌊z⌋ = n) :
    r.count = n + 1 := by
  unfold count
  dsimp only
  rw [hstep, if_neg Bool.false_ne_true, if_neg (mt (Real.lt_zero_iff_of_value? hp).1 hnonneg.not_gt),
    Real.floorInt_of_value? hz, Real.isFinite_of_value? hp, hn]
  rfl

/-- The significand and the exponent of the slack. -/
theorem value?_slack : value? slack.toModel.unpack = some (7737125245533627 * 2 ^ (-86 : Int)) := by
  have hunpack : slack.toModel.unpack = .finite .positive 7737125245533627 (-86) (by decide) := rfl
  rw [hunpack]
  rfl

theorem slack_bounds : (0 : Rat) < 7737125245533627 * 2 ^ (-86 : Int) ∧
    (7737125245533627 * 2 ^ (-86 : Int) : Rat) < 1 / 2 ^ 33 := by
  norm_num

theorem value?_zero_add_slack {x : Float} {s : Sign} (hx : x.toModel.unpack = .zero s) :
    value? (x + slack).toModel.unpack = value? slack.toModel.unpack := by
  have hunpack : (x + slack).toModel = Float.Model.pack
      (UnpackedFloat.add Format.binary64 x.toModel.unpack slack.toModel.unpack) := rfl
  rw [hunpack, hx]
  cases s <;> rfl

section

variable (ha : int? r.start = some a) (hb : int? r.stop = some b) (hs : int? r.step = some s)
  (hspan : (b - a).natAbs ≤ 2 ^ 53)

include ha hb hs hspan

/-- Against the direction of the step there are no values. -/
theorem count_of_neg (hneg : (b - a) * s < 0) : r.count = 0 := by
  obtain ⟨t, R, hR, -, hvalue⟩ := Real.exists_roundsTo_div_int (Real.int?_sub hb ha hspan) hs
    (left_ne_zero_of_mul hneg.ne) (right_ne_zero_of_mul hneg.ne) hspan
  refine count_of_lt hvalue ?_
  rw [Int.sign_eq_neg_one_of_neg hneg, neg_one_mul, Int.cast_neg, Int.cast_natCast, neg_mul]
  exact neg_neg_of_pos (mul_pos (by exact_mod_cast hR) (Real.two_zpow_pos t))

/-- Where start and end are the same, this is the only value. -/
theorem count_of_eq (hs0 : s ≠ 0) (heq : b - a = 0) : r.count = 1 := by
  have hlength := Real.int?_sub hb ha hspan
  rw [heq] at hlength
  obtain ⟨sign, hsteps⟩ := Real.unpack_zero_div hlength hs hs0
  have hp : value? ((r.stop - r.start) / r.step).toModel.unpack = some 0 := by
    rw [hsteps]
    rfl
  refine count_of_le (step_ne_zero hs hs0) hp le_rfl ((value?_zero_add_slack hsteps).trans value?_slack)
    (n := 0) ?_
  norm_num

/-- In the direction of the step there are as many values as steps that fit into the range, and one more. -/
theorem count_of_pos (hpos : 0 < (b - a) * s)
    (hgap : s.natAbs ≤ 2 ^ 32 * (s.natAbs - (b - a).natAbs % s.natAbs)) :
    r.count = (b - a).natAbs / s.natAbs + 1 := by
  have hs0 : s ≠ 0 := right_ne_zero_of_mul hpos.ne'
  have hs1 := Int.natAbs_pos.2 hs0
  obtain ⟨t, R, hR, hrounds, hvalue⟩ := Real.exists_roundsTo_div_int (Real.int?_sub hb ha hspan) hs
    (left_ne_zero_of_mul hpos.ne') hs0 hspan
  rw [Int.sign_eq_one_of_pos hpos, one_mul, Int.cast_natCast] at hvalue
  obtain ⟨hslack, hslack'⟩ := slack_bounds
  have hsteps : (0 : Rat) < R * 2 ^ t := mul_pos (by exact_mod_cast hR) (Real.two_zpow_pos t)
  have hlarge : (R : Rat) * 2 ^ t ≤ (2 ^ 53 : Nat) := by
    refine hrounds.le_natCast le_rfl ?_
    calc ((b - a).natAbs : Rat) / s.natAbs ≤ (b - a).natAbs :=
          div_le_self (Nat.cast_nonneg _) (by exact_mod_cast hs1)
      _ ≤ (2 ^ 53 : Nat) := by exact_mod_cast hspan
  have hsum : (R : Rat) * 2 ^ t + 7737125245533627 * 2 ^ (-86 : Int) ≤ Real.largest := by
    refine Real.le_largest ?_
    calc (R : Rat) * 2 ^ t + 7737125245533627 * 2 ^ (-86 : Int)
        ≤ (2 ^ 53 : Nat) + 1 / 2 ^ 33 := add_le_add hlarge hslack'.le
      _ ≤ 2 ^ (54 : Int) := by norm_num
      _ ≤ 2 ^ (1023 : Int) := zpow_le_zpow_right₀ one_le_two (by decide)
  obtain ⟨t', R', hrounds', hvalue'⟩ := Real.exists_roundsTo_add hvalue value?_slack hsteps hslack hsum
  exact count_of_le (step_ne_zero hs hs0) hvalue hsteps.le hvalue'
    (Real.floor_rounded hspan hs1 hrounds hrounds' hslack hslack' hgap)

theorem count_of_int? (hs0 : s ≠ 0) (hforward : 0 ≤ (b - a) * s)
    (hgap : s.natAbs ≤ 2 ^ 32 * (s.natAbs - (b - a).natAbs % s.natAbs)) :
    r.count = (b - a).natAbs / s.natAbs + 1 := by
  rcases hforward.lt_or_eq with hpos | hzero
  · exact count_of_pos ha hb hs hspan hpos hgap
  · have heq := (mul_eq_zero.1 hzero.symm).resolve_right hs0
    rw [count_of_eq ha hb hs hspan hs0 heq, heq, Int.natAbs_zero, Nat.zero_div]

end

/-! ### The values -/

/-- What follows the values passes the end, if at all, by no less than `2 ^ (-32)` of a step. -/
def PassesClearly (a b s : Int) : Prop :=
  ∀ i : Nat, 0 < i → ¬Within a b s (a + i * s) → s.natAbs ≤ 2 ^ 32 * (a + i * s - b).natAbs

/-- By a step that is not too large an integer passes the end by enough of it. -/
theorem passesClearly_of_natAbs_le (hs : s.natAbs ≤ 2 ^ 32) : PassesClearly a b s := by
  intro i hi hwithin
  have hne : (a + i * s - b).natAbs ≠ 0 := by
    intro heq
    refine hwithin ?_
    unfold Within
    split
    · have := mul_nonneg (Int.natCast_nonneg i) (show 0 ≤ s by omega)
      omega
    · have := mul_nonneg (Int.natCast_nonneg i) (show 0 ≤ -s by omega)
      rw [mul_neg] at this
      omega
  calc s.natAbs ≤ 2 ^ 32 * 1 := by rwa [mul_one]
    _ ≤ 2 ^ 32 * (a + i * s - b).natAbs := Nat.mul_le_mul_left _ (Nat.pos_of_ne_zero hne)

/-- The first value behind the end passes it by what is missing from the next multiple of the step. -/
theorem natAbs_past (hs0 : s ≠ 0) (hforward : 0 ≤ (b - a) * s) :
    (a + ((b - a).natAbs / s.natAbs + 1 : Nat) * s - b).natAbs = s.natAbs - (b - a).natAbs % s.natAbs := by
  have hmod := Nat.mod_lt (b - a).natAbs (Int.natAbs_pos.2 hs0)
  have hsplit := Nat.div_add_mod (b - a).natAbs s.natAbs
  generalize (b - a).natAbs / s.natAbs = k at hsplit ⊢
  have hsteps : ((s.natAbs * k : Nat) : Int) = |s| * k := by rw [Nat.cast_mul, Int.natCast_natAbs]
  rw [Nat.cast_succ, add_one_mul, mul_comm (k : Int)]
  rcases lt_or_gt_of_ne hs0 with hneg | hpos
  · rw [← neg_mul_neg (b - a), mul_nonneg_iff_of_pos_right (neg_pos.2 hneg)] at hforward
    rw [abs_of_neg hneg, neg_mul] at hsteps
    omega
  · rw [mul_nonneg_iff_of_pos_right hpos] at hforward
    rw [abs_of_pos hpos] at hsteps
    omega

/-- A range of integers steps through it, as long as sums and differences are exact and the slack is too small
to add a value. -/
theorem stepsThrough_of_int? (ha : int? r.start = some a) (hb : int? r.stop = some b)
    (hs : int? r.step = some s) (hs0 : s ≠ 0) (hmax : a.natAbs ≤ 2 ^ 53) (hmax' : b.natAbs ≤ 2 ^ 53)
    (hspan : (b - a).natAbs ≤ 2 ^ 53)
    (hpasses : PassesClearly a b s) : r.StepsThrough a b s := by
  rcases lt_or_ge ((b - a) * s) 0 with hbackward | hforward
  · refine ⟨0, ?_, nofun, ?_⟩
    · unfold values
      rw [count_of_neg ha hb hs hspan hbackward]
      rfl
    · rw [within_iff hs0]
      exact fun h => absurd h.1 hbackward.not_ge
  · obtain ⟨k, hk⟩ : ∃ k, k = (b - a).natAbs / s.natAbs := ⟨_, rfl⟩
    have hin (i : Nat) : Within a b s (a + i * s) ↔ i < k + 1 := by
      rw [within_iff hs0, ← hk, Nat.lt_succ_iff]
      exact and_iff_right hforward
    have hout : ¬Within a b s (a + (k + 1 : Nat) * s) := fun h => absurd ((hin _).1 h) (lt_irrefl _)
    have hcount : r.count = k + 1 := by
      have hgap := hpasses (k + 1) k.succ_pos hout
      rw [hk, natAbs_past hs0 hforward] at hgap
      rw [hk]
      exact count_of_int? ha hb hs hspan hs0 hforward hgap
    refine ⟨k + 1, ?_, fun i hi => (hin i).2 hi, hout⟩
    unfold values
    rw [hcount, List.map_map]
    refine List.map_congr_left fun i hi => ?_
    have hi := List.mem_range.1 hi
    have hwithin := (hin i).2 hi
    have hlength : i * s.natAbs ≤ (b - a).natAbs := by
      rw [← Nat.le_div_iff_mul_le (Int.natAbs_pos.2 hs0), ← hk]
      exact Nat.le_of_lt_succ hi
    have hi53 : i ≤ 2 ^ 53 := (Nat.le_mul_of_pos_right i (Int.natAbs_pos.2 hs0)).trans (hlength.trans hspan)
    have hmul := Real.int?_mul (Real.int?_ofNat hi53) hs (by
      rw [Int.natAbs_mul, Int.natAbs_natCast]
      exact hlength.trans hspan)
    refine Real.int?_add ha hmul ?_
    unfold Within at hwithin
    split at hwithin <;> omega

/-- Down from the largest of all integers below which there are no gaps. -/
theorem stepsThrough_largest :
    (⟨9007199254740992.0, 9007199254740981.0, -3.0⟩ : Range).StepsThrough (2 ^ 53) (2 ^ 53 - 11) (-3) :=
  stepsThrough_of_int? (by decide +kernel) (by decide +kernel) (by decide +kernel) (by decide) (by decide)
    (by decide) (by decide) (passesClearly_of_natAbs_le (by decide))

theorem length_of_stepsThrough {n : Nat}
    (h : r.values.map int? = (List.range n).map (fun i : Nat => some (a + i * s))) : n = r.values.length := by
  have hlength := congrArg List.length h
  rw [List.length_map, List.length_map, List.length_range] at hlength
  exact hlength.symm

/-- A long step may pass the end by so little that the slack takes it for one within the range, and integers
beyond `2 ^ 53` may have to be rounded. -/
theorem not_stepsThrough :
    (¬∀ (r : Range) (a b s : Int), int? r.start = some a → int? r.stop = some b → int? r.step = some s →
      s ≠ 0 → a.natAbs ≤ 2 ^ 53 → b.natAbs ≤ 2 ^ 53 → (b - a).natAbs ≤ 2 ^ 53 → r.StepsThrough a b s) ∧
    ¬∀ (r : Range) (a b s : Int), int? r.start = some a → int? r.stop = some b → int? r.step = some s →
      s ≠ 0 → PassesClearly a b s → r.StepsThrough a b s := by
  constructor
  · intro h
    obtain ⟨n, hvalues, hin, -⟩ := h ⟨0.0, 19999999999.0, 20000000000.0⟩ 0 19999999999 20000000000
      (by decide +kernel) (by decide +kernel) (by decide +kernel) (by decide) (by decide) (by decide)
      (by decide)
    have hr : (⟨0.0, 19999999999.0, 20000000000.0⟩ : Range).values = [0.0, 20000000000.0] := by decide +kernel
    have hn : n = 2 := by rw [length_of_stepsThrough hvalues, hr]; rfl
    have hlast := hin 1 (by omega)
    rw [Within, if_pos (by decide)] at hlast
    omega
  · intro h
    obtain ⟨n, hvalues, -⟩ := h ⟨9007199254740992.0, 9007199254740996.0, 1.0⟩ (2 ^ 53) (2 ^ 53 + 4) 1
      (by decide +kernel) (by decide +kernel) (by decide +kernel) (by decide)
      (passesClearly_of_natAbs_le (by decide))
    have hr : (⟨9007199254740992.0, 9007199254740996.0, 1.0⟩ : Range).values =
        [9007199254740992.0, 9007199254740992.0, 9007199254740994.0, 9007199254740996.0,
          9007199254740996.0] := by
      decide +kernel
    have hn : n = 5 := by rw [length_of_stepsThrough hvalues, hr]; rfl
    rw [hr, hn] at hvalues
    exact absurd hvalues (by decide +kernel)

end Range

end MathExpr
