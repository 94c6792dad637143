import Mathlib
import MathExpr.Number.Basic

/-!
# Floating-point numbers as integers

`Real.int?` is the integer that a floating-point number is, if it is one. It only depends
on the parts of the number, and these are the same whether they are read off its bits or
taken from its unpacked form (`Real.Binary.of_eq`). Numbers that are equal in the sense of
comparison, as the two zeros are, are the same integer (`Real.int?_eq_of_beq`).
-/

namespace MathExpr

open Float.Model (UnpackedFloat Format)

namespace Real

/-! ### Unpacked numbers -/

theorem toNat_unpackMantissa (b : BitVec 64) :
    (@UnpackedFloat.unpackMantissa Format.binary64 b).toNat = b.toNat % 2 ^ 52 := by
  simp [UnpackedFloat.unpackMantissa, BitVec.extractLsb_toNat]

theorem toNat_unpackExponent (b : BitVec 64) :
    (@UnpackedFloat.unpackExponent Format.binary64 b).toNat = b.toNat / 2 ^ 52 % 2 ^ 11 := by
  simp [UnpackedFloat.unpackExponent, BitVec.extractLsb_toNat, Nat.shiftRight_eq_div_pow]

theorem toNat_unpackSign (b : BitVec 64) :
    (@UnpackedFloat.unpackSign Format.binary64 b).toNat = b.toNat / 2 ^ 63 := by
  have hlt := b.isLt
  simp [UnpackedFloat.unpackSign, BitVec.extractLsb_toNat, Nat.shiftRight_eq_div_pow]
  omega

/-- The significand of a normal number has its highest bit set. -/
theorem toNat_implicit (m : BitVec 52) : (1#1 ++ m).toNat = m.toNat + 2 ^ 52 := by
  rw [BitVec.toNat_append, ← Nat.shiftLeft_add_eq_or_of_lt m.isLt, Nat.shiftLeft_eq]
  exact Nat.add_comm _ _

/-- The parts of an unpacked number. -/
def Binary.ofUnpacked : UnpackedFloat → Binary
  | .infinity s => .infinite (s == .negative)
  | .notANumber => .nan
  | .zero s => .finite (s == .negative) 0 (-1074)
  | .finite s m e _ => .finite (s == .negative) m e

theorem isNegative_eq (x : Float) :
    isNegative x = (UnpackedFloat.Sign.ofBitVec
      (@UnpackedFloat.unpackSign Format.binary64 x.toModel.toBits.toBitVec) == .negative) := by
  have hsign := toNat_unpackSign x.toModel.toBits.toBitVec
  have hlt := x.toModel.toBits.toBitVec.isLt
  unfold isNegative UnpackedFloat.Sign.ofBitVec
  show (x.toModel.toBits.toBitVec.toNat / 2 ^ 63 == 1) = _
  rw [← hsign]
  split
  · rename_i hzero
    rw [hzero]
    rfl
  · rename_i hzero
    have hone : (@UnpackedFloat.unpackSign Format.binary64 x.toModel.toBits.toBitVec).toNat = 1 := by
      have hne := fun h => hzero (BitVec.eq_of_toNat_eq h)
      have hne : x.toModel.toBits.toBitVec.toNat / 2 ^ 63 ≠ 0 := by rwa [← hsign]
      omega
    rw [hone]
    rfl

/-- The parts that a sign, an exponent and a mantissa stand for. -/
def Binary.ofFields (s : UnpackedFloat.Sign) (exponent mantissa : Nat) : Binary :=
  if exponent = 2047 then
    if mantissa = 0 then .infinite (s == .negative) else .nan
  else if exponent = 0 then .finite (s == .negative) mantissa (-1074)
  else .finite (s == .negative) (mantissa + 2 ^ 52) (Int.ofNat exponent - 1075)

/-- The parts of an unpacked number are those of its fields. -/
theorem Binary.ofUnpacked_unpack (b : BitVec Format.binary64.numBits) :
    Binary.ofUnpacked (UnpackedFloat.unpack Format.binary64 b) =
      Binary.ofFields (UnpackedFloat.Sign.ofBitVec (UnpackedFloat.unpackSign b))
        (UnpackedFloat.unpackExponent b).toNat (UnpackedFloat.unpackMantissa b).toNat := by
  have hmantissa : UnpackedFloat.unpackMantissa b = 0#_ ↔
      (UnpackedFloat.unpackMantissa b).toNat = 0 := (BitVec.toNat_inj (y := 0#_)).symm
  unfold UnpackedFloat.unpack ofFields
  dsimp only
  by_cases hones : UnpackedFloat.unpackExponent b = -1#_
  · have hexponent : (UnpackedFloat.unpackExponent b).toNat = 2047 := by
      rw [hones]
      rfl
    rw [if_pos hones, if_pos hexponent]
    by_cases hm : UnpackedFloat.unpackMantissa b = 0#_
    · rw [if_pos hm, if_pos (hmantissa.1 hm)]
      rfl
    · rw [if_neg hm, if_neg fun h => hm (hmantissa.2 h)]
      rfl
  · have hexponent : (UnpackedFloat.unpackExponent b).toNat ≠ 2047 := fun h =>
      hones (BitVec.eq_of_toNat_eq h)
    rw [if_neg hones, if_neg hexponent]
    by_cases hzero : UnpackedFloat.unpackExponent b = 0#_
    · have hexponent : (UnpackedFloat.unpackExponent b).toNat = 0 := by
        rw [hzero]
        rfl
      rw [if_pos hzero, if_pos hexponent]
      by_cases hm : UnpackedFloat.unpackMantissa b = 0#_
      · rw [dif_pos hm, hmantissa.1 hm]
        rfl
      · rw [dif_neg hm, hexponent]
        rfl
    · have hexponent : (UnpackedFloat.unpackExponent b).toNat ≠ 0 := fun h =>
        hzero (BitVec.eq_of_toNat_eq h)
      rw [if_neg hzero, if_neg hexponent]
      show Binary.finite _ _ _ = Binary.finite _ _ _
      rw [← toNat_implicit]
      rfl

/-- The parts of a number are those of its unpacked form. -/
theorem Binary.of_eq (x : Float) : Binary.of x = Binary.ofUnpacked x.toModel.unpack := by
  unfold Float.Model.unpack
  rw [ofUnpacked_unpack, toNat_unpackExponent, toNat_unpackMantissa]
  unfold Binary.of
  rw [isNegative_eq]
  rfl

/-! ### Integers -/

/-- The integer that a floating-point number is, if it is one. -/
def int? (x : Float) : Option Int :=
  if isInteger x then (truncInt x).toOption else none

/-- The integer that some parts make up. -/
def Binary.int? : Binary → Option Int
  | .finite negative m e =>
    if 0 ≤ e ∨ m % 2 ^ (-e).toNat = 0 then some (truncOf negative m e) else none
  | _ => none

theorem int?_eq (x : Float) : int? x = (Binary.of x).int? := by
  unfold int? isInteger truncInt exactly Binary.int?
  rcases Binary.of x with ⟨negative, m, e⟩ | negative | _
  · simp only [Bool.or_eq_true, decide_eq_true_eq, beq_iff_eq]
    rfl
  · rfl
  · rfl

/-- Zero is an integer, whatever its sign and exponent. -/
theorem Binary.int?_zero (negative : Bool) (e : Int) : (finite negative 0 e).int? = some 0 := by
  show (if 0 ≤ e ∨ 0 % 2 ^ (-e).toNat = 0 then some (truncOf negative 0 e) else none) = some 0
  rw [if_pos (.inr (Nat.zero_mod _))]
  simp [truncOf]

/-- Numbers that are compared as equal are both infinite, both zero, or the same. -/
theorem eq_of_unpacked_beq {a b : UnpackedFloat} (h : a.beq b = true) :
    (∃ s s', a = .infinity s ∧ b = .infinity s') ∨ (∃ s s', a = .zero s ∧ b = .zero s') ∨ a = b := by
  have hcompare : a.compare b = some .eq := by simpa [UnpackedFloat.beq] using h
  rcases a with s | _ | s | ⟨s, m, e, hm⟩ <;> rcases b with s' | _ | s' | ⟨s', m', e', hm'⟩
  case infinity.infinity => exact .inl ⟨s, s', rfl, rfl⟩
  case zero.zero => exact .inr (.inl ⟨s, s', rfl, rfl⟩)
  case finite.finite =>
    cases s <;> cases s' <;> simp [UnpackedFloat.compare, Ordering.then_eq_eq] at hcompare
    all_goals
      obtain ⟨rfl, rfl⟩ := hcompare
      exact .inr (.inr rfl)
  all_goals first | cases hcompare | (cases s <;> cases hcompare) | (cases s' <;> cases hcompare)

theorem int?_eq_of_beq {x y : Float} (h : (x == y) = true) : int? x = int? y := by
  rw [int?_eq, int?_eq, Binary.of_eq, Binary.of_eq]
  rcases eq_of_unpacked_beq h with ⟨s, s', hx, hy⟩ | ⟨s, s', hx, hy⟩ | hxy
  · rw [hx, hy]
    rfl
  · rw [hx, hy]
    exact (Binary.int?_zero _ _).trans (Binary.int?_zero _ _).symm
  · rw [hxy]

end Real

/-- The integer that a number is, if it is one. -/
def Number.int? : Number → Option Int
  | real x => Real.int? x
  | complex _ => none

/-- Integers that are equal as numbers are the same. -/
theorem Number.int?_eq_of_eq {a b : Number} (h : a.eq b = true) {m n : Int}
    (ha : a.int? = some m) (hb : b.int? = some n) : m = n := by
  cases a with
  | complex z => cases ha
  | real x =>
      cases b with
      | complex z => cases hb
      | real y =>
          have hxy : (x == y) = true := by
            unfold Number.eq at h
            exact (Bool.and_eq_true_iff.1 h).1
          have hint := Real.int?_eq_of_beq hxy
          change Real.int? x = some m at ha
          change Real.int? y = some n at hb
          rw [ha, hb] at hint
          exact Option.some.inj hint

end MathExpr
