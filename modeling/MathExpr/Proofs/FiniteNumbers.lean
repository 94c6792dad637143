import MathExpr.Number.Basic
import MathExpr.Proofs.Integers

/-!
# Finite numbers

A finite number differs from itself by nothing (`Real.sub_self`), and what is compared with the difference
is not below zero: the size of a number (`Real.zero_le_abs`), and that of a finite number that has been
multiplied by a factor (`Number.zero_le_of_abs_mul`). Infinite factors, and products that overflow, make
the size infinite, but not undefined.

All this follows from the signs of numbers (`Real.sign?`), which only not-a-number does not have.
-/

namespace MathExpr

namespace Real

open Float.Model (Format UnpackedFloat pack)
open Float.Model.UnpackedFloat (Sign packComponents)

/-! ### Signs -/

/-- The sign of a number, which not-a-number does not have. -/
def sign? : UnpackedFloat → Option Sign
  | .infinity s => some s
  | .zero s => some s
  | .finite s .. => some s
  | .notANumber => none

theorem sign?_unpack_packComponents (s : Sign) {e : BitVec 11} (m : BitVec 52) (he : e ≠ -1#11) :
    sign? (UnpackedFloat.unpack Format.binary64 (packComponents Format.binary64 s e m)) = some s := by
  unfold UnpackedFloat.unpack
  simp only [UnpackedFloat.unpackMantissa_packComponents, UnpackedFloat.unpackExponent_packComponents,
    UnpackedFloat.unpackSign_packComponents, UnpackedFloat.Sign.ofBitVec_toBitVec]
  rw [if_neg he]
  split
  · split <;> rfl
  · rfl

/-- Packing keeps the sign, also where the number becomes zero or infinite. -/
theorem sign?_pack (u : UnpackedFloat) : sign? (pack u).unpack = sign? u := by
  cases u with
  | infinity s => cases s <;> rfl
  | notANumber => rfl
  | zero s => cases s <;> rfl
  | finite s m e hm =>
      show sign? (UnpackedFloat.unpack Format.binary64 (UnpackedFloat.pack Format.binary64 _)) = some s
      unfold UnpackedFloat.pack
      dsimp only
      split
      · cases s <;> rfl
      · rename_i hrange
        split
        · refine sign?_unpack_packComponents s _ fun hones => hrange ?_
          have hnat := congrArg BitVec.toNat hones
          rw [BitVec.toNat_ofNat, show (-1#11).toNat = 2047 from rfl] at hnat
          omega
        · exact sign?_unpack_packComponents s _ (by decide)

theorem isNaN_eq (x : Float) : x.isNaN = (sign? x.toModel.unpack).isNone := by
  show x.toModel.unpack.isNaN = _
  cases x.toModel.unpack <;> rfl

theorem sign?_isSome {x : Float} (h : x.isNaN = false) : ∃ s, sign? x.toModel.unpack = some s := by
  rw [isNaN_eq] at h
  cases hs : sign? x.toModel.unpack with
  | none =>
      rw [hs] at h
      cases h
  | some s => exact ⟨s, rfl⟩

theorem isFinite_or_isInf {x : Float} (h : x.isNaN = false) : x.isFinite = true ∨ x.isInf = true := by
  have h : x.toModel.unpack.isNaN = false := h
  show x.toModel.unpack.isFinite = true ∨ x.toModel.unpack.isInf = true
  cases hx : x.toModel.unpack with
  | infinity s => exact .inr rfl
  | notANumber =>
      rw [hx] at h
      cases h
  | _ => exact .inl rfl

theorem isNaN_of_isInf {x : Float} (h : x.isInf = true) : x.isNaN = false := by
  have h : x.toModel.unpack.isInf = true := h
  show x.toModel.unpack.isNaN = false
  cases hx : x.toModel.unpack with
  | infinity s => rfl
  | _ =>
      rw [hx] at h
      cases h

theorem isInf_of_isFinite {x : Float} (h : x.isFinite = true) : x.isInf = false := by
  have h : x.toModel.unpack.isFinite = true := h
  show x.toModel.unpack.isInf = false
  cases hx : x.toModel.unpack with
  | infinity s =>
      rw [hx] at h
      cases h
  | _ => rfl

/-- A finite number equals itself. -/
theorem beq_self {x : Float} (h : x.isFinite = true) : (x == x) = true := by
  refine Float.beq_self_iff.2 fun hnan => ?_
  rw [hnan] at h
  cases h

/-! ### Numbers that are not below zero -/

theorem zero_le_iff {x : Float} : 0.0 ≤ x ↔ UnpackedFloat.le (.zero .positive) x.toModel.unpack = true :=
  decide_eq_true_iff

theorem zero_le_of_sign {x : Float} (h : sign? x.toModel.unpack = some .positive) : 0.0 ≤ x := by
  rw [zero_le_iff]
  generalize x.toModel.unpack = u at h
  cases u <;> cases h <;> rfl

theorem isNaN_of_zero_le {x : Float} (h : 0.0 ≤ x) : x.isNaN = false := by
  rw [zero_le_iff] at h
  show x.toModel.unpack.isNaN = false
  generalize x.toModel.unpack = u at h
  cases u with
  | notANumber => cases h
  | _ => rfl

/-- What is not below one is above zero. -/
theorem zero_lt_of_one_le {x : Float} (h : 1.0 ≤ x) : Float.ofNat 0 < x := by
  have hone : (1.0 : Float).toModel.unpack = .finite .positive (2 ^ 52) (-52) (by decide) := rfl
  have hle : UnpackedFloat.le (1.0 : Float).toModel.unpack x.toModel.unpack = true := decide_eq_true_iff.1 h
  have hlt : UnpackedFloat.lt (.zero .positive) x.toModel.unpack = true := by
    rw [hone] at hle
    generalize x.toModel.unpack = u at hle
    cases u with
    | notANumber => cases hle
    | zero s => cases s <;> cases hle
    | infinity s =>
        cases s
        · cases hle
        · rfl
    | finite s m e hm =>
        cases s
        · cases hle
        · rfl
  exact decide_eq_true_iff.2 hlt

/-- The size of a number is not below zero. -/
theorem zero_le_abs {x : Float} (h : x.isNaN = false) : 0.0 ≤ x.abs := by
  refine zero_le_of_sign ?_
  obtain ⟨s, hs⟩ := sign?_isSome h
  show sign? (pack x.toModel.unpack.abs).unpack = some .positive
  rw [sign?_pack]
  generalize x.toModel.unpack = u at hs
  cases u <;> cases hs <;> rfl

/-- A finite number differs from itself by nothing. -/
protected theorem sub_self {x : Float} (h : x.isFinite = true) : x - x = 0.0 := by
  have hfinite : x.toModel.unpack.isFinite = true := h
  show Float.ofModel (pack (UnpackedFloat.sub Format.binary64 x.toModel.unpack x.toModel.unpack)) = _
  generalize x.toModel.unpack = u at hfinite
  cases u with
  | infinity s => cases hfinite
  | notANumber => cases hfinite
  | zero s => cases s <;> rfl
  | finite s m e hm =>
      have hsub : UnpackedFloat.sub Format.binary64 (.finite s m e hm) (.finite s m e hm) =
          .zero .positive := by
        show UnpackedFloat.normalize _ (_ - _) _ _ = _
        rw [Int.sub_self]
        rfl
      rw [hsub]
      rfl

/-! ### Products -/

theorem sign?_roundWithAccuracy (f : Format) (s : Sign) (m : Nat) (e : Int)
    (a : UnpackedFloat.Accuracy) : sign? (UnpackedFloat.roundWithAccuracy f s m e a) = some s := by
  unfold UnpackedFloat.roundWithAccuracy
  dsimp only
  split <;> rfl

/-- A product of finite numbers may be infinite, but not undefined. -/
theorem isNaN_mul {x y : Float} (hx : x.isFinite = true) (hy : y.isFinite = true) :
    (x * y).isNaN = false := by
  have hx : x.toModel.unpack.isFinite = true := hx
  have hy : y.toModel.unpack.isFinite = true := hy
  rw [isNaN_eq, show (x * y).toModel = pack (.mul Format.binary64 x.toModel.unpack y.toModel.unpack) from rfl,
    sign?_pack]
  generalize x.toModel.unpack = u at hx
  generalize y.toModel.unpack = v at hy
  cases u <;> cases hx <;> cases v <;> cases hy
  case finite.refl.finite.refl => exact congrArg Option.isNone (sign?_roundWithAccuracy ..)
  all_goals rfl

theorem isInf_pack_infinity (s : Sign) : (pack (.infinity s)).unpack.isInf = true := by
  cases s <;> rfl

/-- A number that is not zero times an infinite number is infinite. -/
theorem isInf_mul {x y : Float} (hx : x.isFinite = true) (hzero : (x == 0.0) = false) (hy : y.isInf = true) :
    (x * y).isInf = true := by
  have hx : x.toModel.unpack.isFinite = true := hx
  have hzero : UnpackedFloat.beq x.toModel.unpack (.zero .positive) = false := hzero
  have hy : y.toModel.unpack.isInf = true := hy
  show (pack (.mul Format.binary64 x.toModel.unpack y.toModel.unpack)).unpack.isInf = true
  generalize x.toModel.unpack = u at hx hzero
  generalize y.toModel.unpack = v at hy
  cases u <;> cases hx
  case zero => cases hzero
  case finite s m e hm =>
      cases v <;> cases hy
      exact isInf_pack_infinity (s * _)

/-- A finite number times zero is a zero, if not always the positive one. -/
protected theorem mul_zero {x : Float} (h : x.isFinite = true) : ∃ s, (x * 0.0).toModel.unpack = .zero s := by
  have hfinite : x.toModel.unpack.isFinite = true := h
  show ∃ s, (pack (.mul Format.binary64 x.toModel.unpack (.zero .positive))).unpack = .zero s
  generalize x.toModel.unpack = u at hfinite
  cases u with
  | infinity s => cases hfinite
  | notANumber => cases hfinite
  | zero s => exact ⟨_, UnpackedFloat.unpack_packedZero⟩
  | finite s m e hm => exact ⟨_, UnpackedFloat.unpack_packedZero⟩

/-! ### Sums with zero -/

/-- Less a zero, a number stays defined, and infinite if it is. -/
protected theorem sub_zero {x z : Float} {s : Sign} (hz : z.toModel.unpack = .zero s) :
    (x.isNaN = false → (x - z).isNaN = false) ∧ (x.isInf = true → (x - z).isInf = true) := by
  rw [isNaN_eq, isNaN_eq,
    show (x - z).toModel = pack (.sub Format.binary64 x.toModel.unpack z.toModel.unpack) from rfl, sign?_pack,
    show x.isInf = x.toModel.unpack.isInf from rfl,
    show (x - z).isInf = (pack (.sub Format.binary64 x.toModel.unpack z.toModel.unpack)).unpack.isInf from rfl, hz]
  cases x.toModel.unpack with
  | infinity t => exact ⟨fun _ => rfl, fun _ => isInf_pack_infinity t⟩
  | notANumber => exact ⟨fun h => h, fun h => by cases h⟩
  | zero t => cases s <;> cases t <;> exact ⟨fun _ => rfl, fun h => by cases h⟩
  | finite t m e hm => exact ⟨fun _ => rfl, fun h => by cases h⟩

/-- Added to a zero, a number stays defined, and infinite if it is. -/
protected theorem zero_add {x z : Float} {s : Sign} (hz : z.toModel.unpack = .zero s) :
    (x.isNaN = false → (z + x).isNaN = false) ∧ (x.isInf = true → (z + x).isInf = true) := by
  rw [isNaN_eq, isNaN_eq,
    show (z + x).toModel = pack (.add Format.binary64 z.toModel.unpack x.toModel.unpack) from rfl, sign?_pack,
    show x.isInf = x.toModel.unpack.isInf from rfl,
    show (z + x).isInf = (pack (.add Format.binary64 z.toModel.unpack x.toModel.unpack)).unpack.isInf from rfl, hz]
  cases x.toModel.unpack with
  | infinity t => exact ⟨fun _ => rfl, fun _ => isInf_pack_infinity t⟩
  | notANumber => exact ⟨fun h => h, fun h => by cases h⟩
  | zero t => cases s <;> cases t <;> exact ⟨fun _ => rfl, fun h => by cases h⟩
  | finite t m e hm => exact ⟨fun _ => rfl, fun h => by cases h⟩

/-! ### Decimals -/

theorem sign?_round (f : Format) (s : Sign) (m : Nat) (e : Int) :
    sign? (UnpackedFloat.round f s m e) = some s :=
  sign?_roundWithAccuracy ..

theorem sign?_mul_finite {u : UnpackedFloat} {s t : Sign} (hu : sign? u = some s) {m : Nat} {e : Int}
    (hm : 0 < m) : sign? (UnpackedFloat.mul Format.binary64 u (.finite t m e hm)) = some (s * t) := by
  cases u <;> cases hu
  case finite => exact sign?_roundWithAccuracy ..
  all_goals rfl

theorem sign?_div_finite {u : UnpackedFloat} {s t : Sign} (hu : sign? u = some s) {m : Nat} {e : Int}
    (hm : 0 < m) : sign? (UnpackedFloat.div Format.binary64 u (.finite t m e hm)) = some (s / t) := by
  cases u <;> cases hu
  case finite => exact sign?_roundWithAccuracy ..
  all_goals rfl

/-- Whether an unpacked number is finite and above zero. -/
def isPositive : UnpackedFloat → Bool
  | .finite .positive .. => true
  | _ => false

theorem isPositive_powersOfTen : ∀ i : Fin Float.exactlyRepresentablePowersOfTen.size,
    isPositive (Float.exactlyRepresentablePowersOfTen[i]).toModel.unpack = true := by
  decide +kernel

theorem sign?_ofUInt64 (n : UInt64) : sign? n.toFloat.toModel.unpack = some .positive := by
  show sign? (pack (UnpackedFloat.normalize Format.binary64 (n.toNat : Int) 0 .positive)).unpack = _
  rw [sign?_pack]
  unfold UnpackedFloat.normalize
  split
  · rename_i hlt
    rw [Int.compare_eq_lt] at hlt
    omega
  · rfl
  · exact sign?_round ..

theorem sign?_ofScientific_unpacked (m : Nat) (e : Int) :
    sign? (UnpackedFloat.ofScientific Format.binary64 m e) = some .positive := by
  unfold UnpackedFloat.ofScientific
  split
  · rfl
  split
  · rfl
  split
  · rfl
  split
  · exact sign?_mul_finite (u := .finite ..) rfl _
  · exact sign?_div_finite (u := .finite ..) rfl _

/-- A decimal without a sign is not below zero. -/
theorem sign?_ofScientific (m : Nat) (s : Bool) (e : Nat) :
    sign? (Float.ofScientific m s e).toModel.unpack = some .positive := by
  unfold Float.ofScientific
  split
  · rename_i h
    have he : e < Float.exactlyRepresentablePowersOfTen.size := Nat.lt_succ_of_le h.2
    have hpower : isPositive (Float.exactlyRepresentablePowersOfTen[e]).toModel.unpack = true :=
      isPositive_powersOfTen ⟨e, he⟩
    have hsize := sign?_ofUInt64 m.toUInt64
    dsimp only
    generalize Float.exactlyRepresentablePowersOfTen[e] = p at hpower
    obtain ⟨n, k, hn, hp⟩ : ∃ n k hn, p.toModel.unpack = .finite .positive n k hn := by
      generalize p.toModel.unpack = v at hpower
      cases v with
      | finite t n k hn =>
          cases t <;> cases hpower
          exact ⟨n, k, hn, rfl⟩
      | _ => cases hpower
    split
    · show sign? (pack (.div Format.binary64 _ p.toModel.unpack)).unpack = _
      rw [sign?_pack, hp]
      exact sign?_div_finite hsize hn
    · show sign? (pack (.mul Format.binary64 _ p.toModel.unpack)).unpack = _
      rw [sign?_pack, hp]
      exact sign?_mul_finite hsize hn
  · dsimp only
    show sign? (pack (.ofScientific Format.binary64 _ _)).unpack = _
    rw [sign?_pack]
    exact sign?_ofScientific_unpacked ..

theorem sign?_nearest (m : Nat) (e : Int) : sign? (nearest m e).toModel.unpack = some .positive := by
  unfold nearest
  split <;> exact sign?_ofScientific ..

/-- A distance is not below zero if it is defined: neither coordinate is undefined, or one is
infinite. -/
theorem zero_le_hypot {x y : Float}
    (h : x.isNaN = false ∧ y.isNaN = false ∨ x.isInf = true ∨ y.isInf = true) : 0.0 ≤ hypot x y := by
  have h : x.toModel.unpack.isNaN = false ∧ y.toModel.unpack.isNaN = false ∨
    x.toModel.unpack.isInf = true ∨ y.toModel.unpack.isInf = true := h
  have hinfinity : 0.0 ≤ infinity := by decide
  unfold hypot
  rw [Binary.of_eq, Binary.of_eq]
  generalize x.toModel.unpack = u at h
  generalize y.toModel.unpack = v at h
  cases u <;> cases v
  case notANumber.notANumber | notANumber.zero | notANumber.finite | zero.notANumber | finite.notANumber =>
    simp [UnpackedFloat.isNaN, UnpackedFloat.isInf] at h
  case zero.zero | zero.finite | finite.zero | finite.finite => exact zero_le_of_sign (sign?_nearest ..)
  all_goals exact hinfinity

end Real

namespace Number

open MathExpr.Real (isNaN_mul isInf_mul hypot zero_le_abs zero_le_hypot)

/-- A number neither of whose parts is infinite or undefined. -/
def isFinite (n : Number) : Bool := n.re.isFinite && n.im.isFinite

/-- Each of the parts of a finite number, times a factor: defined if the factor is finite, and infinite if
the factor is, but for a part that is zero. -/
theorem abs_mul_cases {t : Float} (ht : t.isNaN = false) :
    (∀ x : Float, x.isFinite = true → (x * t).isNaN = false) ∨
      ∀ x : Float, x.isFinite = true → (x == 0.0) = false → (x * t).isInf = true := by
  rcases Real.isFinite_or_isInf ht with hfinite | hinf
  · exact .inl fun x hx => isNaN_mul hx hfinite
  · exact .inr fun x hx hzero => isInf_mul hx hzero hinf

/-- A number times a factor, if its size can be computed, has a size that is not below zero. -/
theorem zero_le_of_abs_mul {n : Number} (hn : n.isFinite = true) (hzero : n.isZero = false) {t x : Float}
    (ht : t.isNaN = false) (h : (n.mul (.real t)).abs = .ok x) : 0.0 ≤ x := by
  obtain ⟨hre, him⟩ := Bool.and_eq_true_iff.1 hn
  cases n with
  | real y =>
      have hy : (y == 0.0) = false := by
        simpa [isZero, Number.re, Number.im, show ((0.0 : Float) == 0.0) = true by decide] using hzero
      cases h
      refine zero_le_abs ?_
      rcases abs_mul_cases ht with hdefined | hinfinite
      · exact hdefined y hre
      · exact Real.isNaN_of_isInf (hinfinite y hre hy)
  | complex z =>
      have hx : hypot (z.re * t - z.im * 0.0) (z.re * 0.0 + z.im * t) = x := by
        have habs : (z.mul (Complex.ofReal t)).abs = .ok x := h
        unfold Complex.abs at habs
        dsimp only at habs
        split at habs
        · cases habs
        · exact Except.ok.inj habs
      rw [← hx]
      obtain ⟨s, hs⟩ := Real.mul_zero him
      obtain ⟨s', hs'⟩ := Real.mul_zero hre
      refine zero_le_hypot ?_
      rcases abs_mul_cases ht with hdefined | hinfinite
      · exact .inl ⟨(Real.sub_zero hs).1 (hdefined _ hre), (Real.zero_add hs').1 (hdefined _ him)⟩
      · cases hzero' : z.re == 0.0 with
        | false => exact .inr (.inl ((Real.sub_zero hs).2 (hinfinite _ hre hzero')))
        | true =>
            have hzero' : (z.im == 0.0) = false := by
              simpa [isZero, Number.re, Number.im, hzero'] using hzero
            exact .inr (.inr ((Real.zero_add hs').2 (hinfinite _ him hzero')))

end Number

end MathExpr
