import MathExpr.Number.Counting
import MathExpr.Proofs.FiniteNumbers
import MathExpr.Proofs.RelativeErrors
import Mathlib.Data.Fintype.CardEmbedding

/-!
# Numbers of selections

The numbers of permutations and combinations are quotients of factorials. They are exact up to the factorial of
22, which is the last one that needs no rounding. Up to that of 170, the last one that is a number, they are
nearly exact, and beyond they are not finite (`Number.countsTo_selections`).

Both are the factorial of `n` divided by a number that divides it (`Number.countsTo_div`). A divisor of a short
significand times a power of two is of this form as well (`Number.exists_of_dvd_factorial`), so that all products
and quotients stay exact as long as the factorial itself is; after that each rounding is counted.
-/

namespace MathExpr

open Float.Model (Format UnpackedFloat)

/-! ### Natural numbers -/

namespace Real

variable {x : Float} {n : Nat}

theorem truncInt_of_int? {n : Int} (hx : int? x = some n) : isInteger x = true ∧ truncInt x = .ok n := by
  unfold int? at hx
  split at hx
  · rename_i hinteger
    refine ⟨hinteger, ?_⟩
    cases htrunc : truncInt x with
    | error fault =>
        rw [htrunc] at hx
        cases hx
    | ok m =>
        rw [htrunc] at hx
        exact congrArg Except.ok (Option.some.inj hx)
  · cases hx

theorem zero_le_of_int? (hx : int? x = some (n : Int)) : 0.0 ≤ x := by
  rw [zero_le_iff]
  rcases Nat.eq_zero_or_pos n with rfl | hn
  · obtain ⟨s, hxs⟩ := unpack_of_int?_zero hx
    rw [hxs]
    rfl
  · have hn' : (0 : Rat) < (n : Int) := by exact_mod_cast hn
    obtain ⟨m, e, hm, hxs, -⟩ := exists_of_value?_pos (int?_eq_some.1 hx) hn'
    rw [hxs]
    rfl

theorem not_lt_zero_of_int? (hx : int? x = some (n : Int)) : ¬x < 0.0 := by
  rw [lt_zero_iff_of_value? (int?_eq_some.1 hx), Int.cast_natCast]
  exact (Nat.cast_nonneg n).not_gt

theorem factorialNat_eq (n : Nat) : factorialNat n = n.factorial := by
  induction n with
  | zero => rfl
  | succ n ih => rw [factorialNat, Nat.factorial_succ, ih]

/-- What is infinite stays so, or is not a number, whatever it is divided by. -/
theorem isFinite_infinity_div (y : Float) : (infinity / y).isFinite = false := by
  have hunpack : (infinity / y).toModel = Float.Model.pack
      (UnpackedFloat.div Format.binary64 infinity.toModel.unpack y.toModel.unpack) := rfl
  have hinfinity : infinity.toModel.unpack = .infinity .positive := rfl
  show (infinity / y).toModel.unpack.isFinite = false
  rw [hunpack, hinfinity]
  have hpack (s : UnpackedFloat.Sign) : (Float.Model.pack (.infinity s)).unpack.isFinite = false := by
    cases s <;> rfl
  have hnan : (Float.Model.pack .notANumber).unpack.isFinite = false := rfl
  generalize y.toModel.unpack = u
  cases u with
  | notANumber | infinity => exact hnan
  | zero | finite => exact hpack _

end Real

namespace Number

/-! ### Factorials -/

/-- The factorial of a natural number as a floating-point number. -/
def factorialOf (n : Nat) : Float :=
  if 170 < n then Real.infinity else Float.ofNat n.factorial

theorem factorial_of_int? {x : Float} {n : Nat} (hx : Real.int? x = some (n : Int)) :
    factorial (real x) = .ok (real (factorialOf n)) := by
  obtain ⟨hinteger, htrunc⟩ := Real.truncInt_of_int? hx
  have hnatural : ((real x).isInteger && decide ((real x).re ≥ 0.0)) = true := by
    have hreal : ((0.0 : Float) == 0.0) = true := by decide +kernel
    rw [Bool.and_eq_true]
    exact ⟨Bool.and_eq_true_iff.2 ⟨hreal, hinteger⟩, decide_eq_true (Real.zero_le_of_int? hx)⟩
  unfold factorial
  rw [if_pos hnatural]
  show (Real.truncInt x >>= fun n => _) = _
  rw [htrunc]
  show Except.ok _ = _
  unfold factorialOf
  rw [Int.toNat_natCast, Real.factorialNat_eq]
  by_cases hn : 170 < n
  · rw [if_pos (by exact_mod_cast hn), if_pos hn]
  · rw [if_neg (by exact_mod_cast hn), if_neg hn]

/-- Permutations and combinations by factorials. -/
theorem exists_selections {x y : Float} {n k : Nat} (hx : Real.int? x = some (n : Int))
    (hy : Real.int? y = some (k : Int)) (hk : k ≤ n) :
    ∃ c : Nat, (n ≤ 170 → c = n - k) ∧
      permutations (real x) (real y) = .ok (real (factorialOf n / factorialOf c)) ∧
      combinations (real x) (real y) =
        .ok (real (factorialOf n / (factorialOf k * factorialOf c))) := by
  obtain ⟨c, hc⟩ := Real.exists_int?_sub hx hy hk
  refine ⟨c, fun hn => ?_, ?_, ?_⟩
  · have hexact := Real.int?_sub hx hy (by omega)
    rw [hc, Option.some_inj] at hexact
    omega
  · unfold permutations
    dsimp only
    rw [if_neg (Real.not_lt_zero_of_int? hx), if_neg (Real.not_lt_zero_of_int? hy),
      if_neg (Real.not_lt_of_int? hx hy hk), factorial_of_int? hx, factorial_of_int? hc]
    rfl
  · unfold combinations
    dsimp only
    rw [if_neg (Real.not_lt_zero_of_int? hx), if_neg (Real.not_lt_zero_of_int? hy),
      if_neg (Real.not_lt_of_int? hx hy hk), factorial_of_int? hx, factorial_of_int? hy, factorial_of_int? hc]
    rfl

/-! ### Factorials that need no rounding -/

/-- A divisor of the factorial of 22 is a short significand times a power of two. -/
theorem exists_of_dvd_factorial {d : Nat} (hd : d ∣ Nat.factorial 22) :
    ∃ M a, M < 2 ^ 53 ∧ d = M * 2 ^ a := by
  have hfactorial : Nat.factorial 22 = 2143861251406875 * 2 ^ 19 := by decide +kernel
  rw [hfactorial] at hd
  obtain ⟨M, p, hM, hp, rfl⟩ := Nat.dvd_mul.1 hd
  obtain ⟨a, -, rfl⟩ := (Nat.dvd_prime_pow Nat.prime_two).1 hp
  exact ⟨M, a, (Nat.le_of_dvd (by decide) hM).trans_lt (by decide), rfl⟩

theorem le_largest_of_dvd {d : Nat} (hd : d ∣ Nat.factorial 22) : (d : Rat) ≤ Real.largest := by
  have hle : d ≤ 2 ^ 1023 := (Nat.le_of_dvd (Nat.factorial_pos 22) hd).trans (by decide +kernel)
  exact Real.le_largest (by exact_mod_cast hle)

/-- A divisor of the factorial of 22 is not changed by rounding. -/
theorem value?_of_dvd {x : Float} {d : Nat} (hd : d ∣ Nat.factorial 22)
    (hx : ∃ t R, Real.RoundsTo t d R ∧ Real.value? x.toModel.unpack = some ((R : Rat) * 2 ^ t)) :
    Real.value? x.toModel.unpack = some (d : Rat) := by
  obtain ⟨t, R, hrounds, hvalue⟩ := hx
  obtain ⟨M, a, hM, rfl⟩ := exists_of_dvd_factorial hd
  rw [hvalue, hrounds.eq_mul_two_pow hM]

theorem value?_factorialOf {n : Nat} (hn : n ≤ 22) :
    Real.value? (factorialOf n).toModel.unpack = some (n.factorial : Rat) := by
  have hd := Nat.factorial_dvd_factorial hn
  unfold factorialOf
  rw [if_neg (by omega)]
  exact value?_of_dvd hd (Real.exists_roundsTo_ofNat n.factorial_pos (le_largest_of_dvd hd))

/-! ### Factorials that are numbers -/

theorem factorial_le {n : Nat} (hn : n ≤ 170) : (n.factorial : Rat) ≤ 2 ^ 1022 := by
  have hle : n.factorial ≤ 2 ^ 1022 := (Nat.factorial_le hn).trans (by decide +kernel)
  exact_mod_cast hle

theorem isNear_factorialOf {n : Nat} (hn : n ≤ 170) : Real.IsNear 1 (factorialOf n) n.factorial := by
  unfold factorialOf
  rw [if_neg (by omega)]
  exact Real.isNear_ofNat n.factorial_pos (factorial_le hn)

/-! ### Selections -/

/-- How a number of selections from `n` things is calculated: exactly as long as the factorials are exact, nearly
so as long as they are numbers, and after that not as a number. -/
structure CountsTo (n count : Nat) (z : Float) : Prop where
  exact : n ≤ 22 → Real.int? z = some (count : Int)
  near : n ≤ 170 →
    ∃ q, Real.value? z.toModel.unpack = some q ∧ |q - count| ≤ count / 2 ^ 50
  beyond : 170 < n → z.isFinite = false

/-- The factorial of `n` is divided by a divisor that has been rounded three times at most. -/
theorem countsTo_div {n d : Nat} {y : Float} (hd : d ∣ n.factorial)
    (hexact : n ≤ 22 → Real.value? y.toModel.unpack = some (d : Rat))
    (hnear : n ≤ 170 → ∃ k ≤ 3, Real.IsNear k y d) : CountsTo n (n.factorial / d) (factorialOf n / y) := by
  have hn0 := n.factorial_pos
  have hd0 : 0 < d := Nat.pos_of_dvd_of_pos hd hn0
  have hn0' : (0 : Rat) < n.factorial := by exact_mod_cast hn0
  have hd0' : (0 : Rat) < d := by exact_mod_cast hd0
  have hdiv : ((n.factorial / d : Nat) : Rat) = n.factorial / d := Nat.cast_div hd hd0'.ne'
  have hcount : n.factorial / d ∣ n.factorial := Nat.div_dvd_of_dvd hd
  refine ⟨fun hn => ?_, fun hn => ?_, fun hn => ?_⟩
  · have hcount := hcount.trans (Nat.factorial_dvd_factorial hn)
    have hmax := le_largest_of_dvd hcount
    have hrounds := Real.exists_roundsTo_div_pos (value?_factorialOf hn) (hexact hn) hn0' hd0' (hdiv ▸ hmax)
    rw [← hdiv] at hrounds
    rw [Real.int?_eq_some, Int.cast_natCast]
    exact value?_of_dvd hcount hrounds
  · obtain ⟨k, hk, hy⟩ := hnear hn
    have hone : (1 : Rat) ≤ (n.factorial / d : Nat) := by
      exact_mod_cast Nat.div_pos (Nat.le_of_dvd hn0 hd) hd0
    have hmax : ((n.factorial / d : Nat) : Rat) ≤ 2 ^ 1022 :=
      (Nat.cast_le.2 (Nat.div_le_self _ _)).trans (factorial_le hn)
    rw [hdiv] at hone hmax ⊢
    obtain ⟨q, hq, hnear⟩ := (isNear_factorialOf hn).div hy hn0' hd0' (by omega) hone hmax
    exact ⟨q, hq, hnear.abs_sub_le (by omega) (div_pos hn0' hd0')⟩
  · unfold factorialOf
    rw [if_pos hn]
    exact Real.isFinite_infinity_div y

theorem countsTo_permutations {n k c : Nat} (hk : k ≤ n) (hc : n ≤ 170 → c = n - k) :
    CountsTo n (n.descFactorial k) (factorialOf n / factorialOf c) := by
  rw [Nat.descFactorial_eq_div hk]
  refine countsTo_div (Nat.factorial_dvd_factorial (Nat.sub_le n k)) (fun hn => ?_) fun hn => ?_
  · rw [hc (by omega)]
    exact value?_factorialOf (by omega)
  · rw [hc hn]
    exact ⟨1, by decide, isNear_factorialOf (by omega)⟩

theorem countsTo_combinations {n k c : Nat} (hk : k ≤ n) (hc : n ≤ 170 → c = n - k) :
    CountsTo n (n.choose k) (factorialOf n / (factorialOf k * factorialOf c)) := by
  have hdvd := Nat.factorial_mul_factorial_dvd_factorial hk
  have hk0 : (0 : Rat) < k.factorial := by exact_mod_cast k.factorial_pos
  have hc0 : (0 : Rat) < (n - k).factorial := by exact_mod_cast (n - k).factorial_pos
  rw [Nat.choose_eq_factorial_div_factorial hk]
  refine countsTo_div hdvd (fun hn => ?_) fun hn => ?_
  · rw [hc (by omega)]
    have hd := hdvd.trans (Nat.factorial_dvd_factorial hn)
    have hmax := le_largest_of_dvd hd
    have hk := value?_factorialOf (n := k) (by omega)
    have hc := value?_factorialOf (n := n - k) (by omega)
    refine value?_of_dvd hd ?_
    push_cast at hmax ⊢
    exact Real.exists_roundsTo_mul hk hc hk0 hc0 hmax
  · rw [hc hn]
    have hone : (1 : Rat) ≤ k.factorial * (n - k).factorial := by
      exact_mod_cast Nat.mul_pos k.factorial_pos (n - k).factorial_pos
    have hmax : (k.factorial * (n - k).factorial : Rat) ≤ 2 ^ 1022 := by
      refine le_trans ?_ (factorial_le hn)
      exact_mod_cast Nat.le_of_dvd n.factorial_pos hdvd
    refine ⟨3, le_refl 3, ?_⟩
    push_cast
    exact (isNear_factorialOf (by omega)).mul (isNear_factorialOf (by omega)) hk0 hc0 (by decide) hone hmax

/-- Permutations are counted as the injective sequences and combinations as the subsets: exactly up to 22 things,
nearly so up to 170, and not as a number beyond. -/
theorem countsTo_selections {x y : Float} {n k : Nat} (hx : Real.int? x = some (n : Int))
    (hy : Real.int? y = some (k : Int)) (hk : k ≤ n) :
    (∃ z, permutations (real x) (real y) = .ok (real z) ∧ CountsTo n (Fintype.card (Fin k ↪ Fin n)) z) ∧
      ∃ z, combinations (real x) (real y) = .ok (real z) ∧
        CountsTo n (Finset.powersetCard k (Finset.univ : Finset (Fin n))).card z := by
  obtain ⟨c, hc, hpermutations, hcombinations⟩ := exists_selections hx hy hk
  rw [Fintype.card_embedding_eq, Finset.card_powersetCard, Finset.card_univ, Fintype.card_fin, Fintype.card_fin]
  exact ⟨⟨_, hpermutations, countsTo_permutations hk hc⟩, ⟨_, hcombinations, countsTo_combinations hk hc⟩⟩

/-- Fifty-two cards. -/
theorem countsTo_selections_cards :
    Real.int? 52.0 = some (52 : Nat) ∧ Real.int? 5.0 = some (5 : Nat) ∧ 5 ≤ 52 ∧
      (∃ z, permutations (real 52.0) (real 5.0) = .ok (real z) ∧
        CountsTo 52 (Fintype.card (Fin 5 ↪ Fin 52)) z) ∧
      ∃ z, combinations (real 52.0) (real 5.0) = .ok (real z) ∧
        CountsTo 52 (Finset.powersetCard 5 (Finset.univ : Finset (Fin 52))).card z := by
  have hx : Real.int? 52.0 = some (52 : Nat) := by decide +kernel
  have hy : Real.int? 5.0 = some (5 : Nat) := by decide +kernel
  have hk : 5 ≤ 52 := by decide
  exact ⟨hx, hy, hk, countsTo_selections hx hy hk⟩

/-- Not all counts below `2 ^ 53` are exact: the factorials of 23 and 24 are rounded. -/
theorem not_selections_exact :
    ¬∀ (x y : Float) (n k : Nat), Real.int? x = some (n : Int) → Real.int? y = some (k : Int) → k ≤ n →
      (Fintype.card (Fin k ↪ Fin n) < 2 ^ 53 → ∃ z, permutations (real x) (real y) = .ok (real z) ∧
        Real.int? z = some (Fintype.card (Fin k ↪ Fin n) : Int)) ∧
      ((Finset.powersetCard k (Finset.univ : Finset (Fin n))).card < 2 ^ 53 →
        ∃ z, combinations (real x) (real y) = .ok (real z) ∧
          Real.int? z = some ((Finset.powersetCard k (Finset.univ : Finset (Fin n))).card : Int)) := by
  intro h
  have hx : Real.int? 24.0 = some (24 : Nat) := by decide +kernel
  have hy : Real.int? 1.0 = some (1 : Nat) := by decide +kernel
  obtain ⟨-, hcombinations⟩ := h 24.0 1.0 24 1 hx hy (by decide)
  rw [Finset.card_powersetCard, Finset.card_univ, Fintype.card_fin, Nat.choose_one_right] at hcombinations
  obtain ⟨z, hz, hexact⟩ := hcombinations (by decide)
  obtain ⟨c, hc, -, hcalculated⟩ := exists_selections hx hy (by decide)
  rw [hc (by decide)] at hcalculated
  obtain rfl : factorialOf 24 / (factorialOf 1 * factorialOf 23) = z := by
    rw [hcalculated] at hz
    injection hz with hz
    injection hz
  have hrounded : Real.int? (factorialOf 24 / (factorialOf 1 * factorialOf 23)) = none := by decide +kernel
  rw [hrounded] at hexact
  cases hexact

end Number

end MathExpr
