import MathExpr.Number.Counting
import MathExpr.Proofs.ExactArithmetic
import Mathlib.Algebra.BigOperators.Fin
import Mathlib.NumberTheory.PrimeCounting

/-!
# Factorisation over the first primes

The exponents that are found in a positive integer are those of the first primes in it, and what is left of it
has none of the thousand primes of the table as a factor (`Number.factorises_factorise`). So it is one exactly
if all prime factors are in the table, and it is one whenever the exponents end before the table does.

* The table is that of the first thousand primes (`Number.primes_eq`). A list of numbers that is filtered is
  the list of the first numbers that pass (`filter_range`), so that this is a matter of their number.
* Each prime is divided out as often as it goes (`Number.splitPower_spec`), and the exponents are followed
  from prime to prime with what is left (`Number.divides_exponents`).
-/

namespace MathExpr

/-! ### The table of primes -/

theorem Real.sqrtNat_eq (n : Nat) : sqrtNat n = n.sqrt := by
  induction n using Nat.strong_induction_on with
  | _ n ih =>
      unfold sqrtNat
      split
      · rename_i hsmall
        interval_cases n <;> rfl
      · rename_i hlarge
        dsimp only
        rw [ih (n / 4) (by omega)]
        have hlower := Nat.sqrt_le (n / 4)
        have hupper := Nat.lt_succ_sqrt (n / 4)
        generalize (n / 4).sqrt = r at hlower hupper
        -- the root of a quarter, doubled, is off by no more than one
        split
        · rename_i hroot
          refine Nat.eq_sqrt.2 ⟨hroot, ?_⟩
          have : n < 4 * ((r + 1) * (r + 1)) := by
            have : n / 4 < (r + 1) * (r + 1) := hupper
            omega
          nlinarith
        · rename_i hroot
          refine Nat.eq_sqrt.2 ⟨?_, Nat.lt_of_not_le hroot⟩
          have : 4 * (r * r) ≤ n := by omega
          nlinarith

namespace Number

theorem isPrime_iff (n : Nat) : isPrime n = true ↔ n.Prime := by
  unfold isPrime
  rw [Real.sqrtNat_eq, Bool.and_eq_true, decide_eq_true_eq, List.all_eq_true, Nat.prime_def_le_sqrt]
  refine and_congr_right fun _ => forall_congr' fun d => ?_
  rw [List.mem_range'_1, bne_iff_ne, ne_eq, ← Nat.dvd_iff_mod_eq_zero, and_imp]
  refine forall_congr' fun hd => ?_
  rw [show d < 2 + (n.sqrt - 1) ↔ d ≤ n.sqrt by omega]

end Number

/-- The numbers below a bound that pass are the first numbers that do. -/
theorem filter_range (p : Nat → Prop) [DecidablePred p] (n : Nat) :
    ((List.range n).filter fun k => p k) = (List.range (Nat.count p n)).map (Nat.nth p) := by
  induction n with
  | zero => simp
  | succ n ih =>
      rw [List.range_succ, List.filter_append, ih, Nat.count_succ]
      by_cases hn : p n
      · simp [hn, List.range_succ, Nat.nth_count hn]
      · simp [hn]

namespace Number

/-- The product of the primes below ninety. -/
def smallPrimesProduct : Nat := 23768741896345550770650537601358310

/-- A number below the square of ninety that has no factor in common with the primes below ninety is prime. -/
theorem prime_of_gcd_eq_one {n : Nat} (hlower : 2 ≤ n) (hupper : n < 90 * 90)
    (h : Nat.gcd n smallPrimesProduct = 1) : n.Prime := by
  have hsmall : ∀ d < 90, 2 ≤ d → Nat.gcd d smallPrimesProduct ≠ 1 := by decide
  refine Nat.prime_def_le_sqrt.2 ⟨hlower, fun d hd hsqrt hdvd => ?_⟩
  have hd90 : d < 90 := hsqrt.trans_lt (Nat.sqrt_lt.2 hupper)
  have hgcd : Nat.gcd d smallPrimesProduct ∣ 1 := h ▸ Nat.gcd_dvd_gcd_of_dvd_left _ hdvd
  exact hsmall d hd90 hd (Nat.dvd_one.1 hgcd)

/-- There are a thousand primes up to eight thousand. -/
theorem thousand_le_count_prime : 1000 ≤ Nat.count Nat.Prime 8001 := by
  have hsmall : Nat.count Nat.Prime 90 = 24 := by decide +kernel
  have hlarge : Nat.count (fun k => Nat.gcd (90 + k) smallPrimesProduct = 1) 7911 = 983 := by
    decide +kernel
  have hprime : ∀ k < 7911, Nat.gcd (90 + k) smallPrimesProduct = 1 → (90 + k).Prime :=
    fun k hk => prime_of_gcd_eq_one (by omega) (by omega)
  have hmono := Nat.count_mono_left hprime
  rw [show 8001 = 90 + 7911 from rfl, Nat.count_add]
  omega

/-- The table is that of the first thousand primes. -/
theorem primes_eq : primes = (List.range 1000).map (Nat.nth Nat.Prime) := by
  have hfilter : (List.range 8001).filter isPrime = (List.range 8001).filter fun n => n.Prime :=
    List.filter_congr fun n _ => by rw [Bool.eq_iff_iff, isPrime_iff, decide_eq_true_eq]
  unfold primes
  rw [hfilter, filter_range, ← List.map_take, List.take_range, min_eq_left thousand_le_count_prime]

theorem mem_primes {q : Nat} : q ∈ primes ↔ ∃ i < 1000, Nat.nth Nat.Prime i = q := by
  simp [primes_eq]

theorem prime_of_mem_primes {q : Nat} (h : q ∈ primes) : q.Prime := by
  obtain ⟨i, -, rfl⟩ := mem_primes.1 h
  exact Nat.prime_nth_prime i

/-! ### Dividing out -/

/-- A number is divided out as often as it goes. -/
theorem splitPower_spec (p : Nat) {n : Nat} (hn : 0 < n) :
    0 < (splitPower p n).2 ∧ n = (splitPower p n).2 * p ^ (splitPower p n).1 ∧
      (2 ≤ p → ¬p ∣ (splitPower p n).2) := by
  induction n using Nat.strong_induction_on with
  | _ n ih =>
      unfold splitPower
      split
      · rename_i h
        obtain ⟨hp, -, hmod⟩ := h
        have hdvd := Nat.dvd_of_mod_eq_zero hmod
        obtain ⟨hpos, heq, hnot⟩ := ih (n / p) (Nat.div_lt_self hn hp)
          (Nat.div_pos (Nat.le_of_dvd hn hdvd) (by omega))
        refine ⟨hpos, ?_, hnot⟩
        dsimp only
        rw [pow_succ, ← mul_assoc, ← heq, Nat.div_mul_cancel hdvd]
      · rename_i h
        exact ⟨hn, by simp, fun hp hdvd => h ⟨hp, hn, Nat.mod_eq_zero_of_dvd hdvd⟩⟩

/-- The exponents of the first of some numbers in `n`, where `rest` is left beside their powers. -/
structure Divides (ps : List Nat) (n : Nat) (es : List Nat) (rest : Nat) : Prop where
  length_le : es.length ≤ ps.length
  pos : 0 < rest
  eq_mul : n = rest * (List.zipWith (· ^ ·) ps es).prod
  not_dvd : ∀ p ∈ ps, ¬p ∣ rest
  complete : es.length < ps.length → rest = 1
  last_pos : es.length < ps.length → n ≠ 1 → ∃ e, es.getLast? = some e ∧ 0 < e

/-- What is left is followed from one number to the next. -/
theorem divides_exponents {ps : List Nat} (hps : ∀ p ∈ ps, 2 ≤ p) {n : Nat} (hn : 0 < n) :
    ∃ rest, Divides ps n (exponents ps n) rest := by
  induction ps generalizing n with
  | nil => exact ⟨n, ⟨le_refl 0, hn, by simp, by simp, by simp [exponents], by simp [exponents]⟩⟩
  | cons p ps ih =>
      have hp := hps p List.mem_cons_self
      have hps := fun q hq => hps q (List.mem_cons_of_mem p hq)
      unfold exponents
      by_cases hone : n = 1
      · rw [if_pos hone]
        refine ⟨1, ⟨Nat.zero_le _, one_pos, by simp [hone], fun q hq hdvd => ?_, fun _ => rfl,
          fun _ hne => absurd hone hne⟩⟩
        have hq : 2 ≤ q := (List.mem_cons.1 hq).elim (fun h => h ▸ hp) (hps q)
        have := Nat.dvd_one.1 hdvd
        omega
      · rw [if_neg hone]
        obtain ⟨hpos, heq, hnot⟩ := splitPower_spec p hn
        obtain ⟨rest, h⟩ := ih hps hpos
        generalize splitPower p n = split at hpos heq hnot h
        obtain ⟨k, left⟩ := split
        dsimp only at hpos heq hnot h ⊢
        have hleft : rest ∣ left := ⟨_, h.eq_mul⟩
        refine ⟨rest, ⟨Nat.succ_le_succ h.length_le, h.pos, ?_, ?_, ?_, ?_⟩⟩
        · rw [List.zipWith_cons_cons, List.prod_cons, mul_left_comm, ← h.eq_mul, mul_comm]
          exact heq
        · intro q hq
          rcases List.mem_cons.1 hq with rfl | hq
          · exact fun hdvd => hnot hp (hdvd.trans hleft)
          · exact h.not_dvd q hq
        · exact fun hlt => h.complete (Nat.lt_of_succ_lt_succ hlt)
        · intro hlt _
          have hlt := Nat.lt_of_succ_lt_succ hlt
          by_cases hleftOne : left = 1
          · -- the last exponent is the one that has left nothing
            have hnil : exponents ps left = [] := by
              rw [hleftOne]
              cases ps <;> simp [exponents]
            refine ⟨k, by simp [hnil], Nat.pos_of_ne_zero fun hk => hone ?_⟩
            rw [heq, hk, hleftOne, pow_zero, mul_one]
          · obtain ⟨e, he, hepos⟩ := h.last_pos hlt hleftOne
            refine ⟨e, ?_, hepos⟩
            rw [List.getLast?_cons, he]
            rfl

/-! ### Factorisation -/

/-- The exponents of the first primes in `n`, where `rest` is left beside their powers. The table ends after a
thousand primes. -/
structure Factorises (n : Nat) (es : List Nat) (rest : Nat) : Prop where
  length_le : es.length ≤ 1000
  eq_mul : n = rest * ∏ i : Fin es.length, Nat.nth Nat.Prime i ^ es[i]
  not_dvd : ∀ i < 1000, ¬Nat.nth Nat.Prime i ∣ rest
  rest_eq_one_iff : rest = 1 ↔ ∀ q, q.Prime → q ∣ n → ∃ i < 1000, Nat.nth Nat.Prime i = q
  complete : es.length < 1000 → 1 < n → rest = 1 ∧ ∃ e, es.getLast? = some e ∧ 0 < e

theorem prod_zipWith_map_range (f : Nat → Nat) {es : List Nat} {n : Nat} (h : es.length ≤ n) :
    (List.zipWith (· ^ ·) ((List.range n).map f) es).prod = ∏ i : Fin es.length, f i ^ es[i] := by
  rw [← List.prod_ofFn]
  congr 1
  refine List.ext_getElem (by simp [h]) fun i hi hi' => ?_
  simp

/-- The primes in a product of powers of primes are among these. -/
theorem mem_of_dvd_prod {ps es : List Nat} (hps : ∀ p ∈ ps, p.Prime) {q : Nat} (hq : q.Prime)
    (hdvd : q ∣ (List.zipWith (· ^ ·) ps es).prod) : q ∈ ps := by
  obtain ⟨a, ha, hqa⟩ := (Nat.Prime.prime hq).dvd_prod_iff.1 hdvd
  obtain ⟨i, hi, rfl⟩ := List.mem_iff_getElem.1 ha
  rw [List.getElem_zipWith] at hqa
  have hi : i < ps.length := by
    rw [List.length_zipWith] at hi
    omega
  have hmem := List.getElem_mem hi
  rw [(Nat.prime_dvd_prime_iff_eq hq (hps _ hmem)).1 (hq.dvd_of_dvd_pow hqa)]
  exact hmem

/-- What is left is one if and only if all prime factors are in the table. -/
theorem Divides.rest_eq_one_iff {ps es : List Nat} {n rest : Nat} (h : Divides ps n es rest)
    (hps : ∀ p ∈ ps, p.Prime) : rest = 1 ↔ ∀ q, q.Prime → q ∣ n → q ∈ ps := by
  constructor
  · rintro rfl q hq hdvd
    have heq := h.eq_mul
    rw [one_mul] at heq
    exact mem_of_dvd_prod hps hq (heq ▸ hdvd)
  · intro hall
    by_contra hne
    have hdvd := Nat.minFac_dvd rest
    exact h.not_dvd _ (hall _ (Nat.minFac_prime hne) (hdvd.trans ⟨_, h.eq_mul⟩)) hdvd

theorem divides_factoriseNat {n : Nat} (hn : 0 < n) :
    ∃ rest, Divides primes n (factoriseNat n) rest :=
  divides_exponents (fun _ hp => (prime_of_mem_primes hp).two_le) hn

theorem exists_factorises {n : Nat} (hn : 0 < n) : ∃ rest, Factorises n (factoriseNat n) rest := by
  have hlength : primes.length = 1000 := by simp [primes_eq]
  obtain ⟨rest, h⟩ := divides_factoriseNat hn
  generalize factoriseNat n = es at h ⊢
  have hle := h.length_le
  rw [hlength] at hle
  refine ⟨rest, ⟨hle, ?_, ?_, ?_, ?_⟩⟩
  · have heq := h.eq_mul
    rwa [primes_eq, prod_zipWith_map_range _ hle] at heq
  · exact fun i hi => h.not_dvd _ (mem_primes.2 ⟨i, hi, rfl⟩)
  · rw [h.rest_eq_one_iff fun p => prime_of_mem_primes]
    simp only [mem_primes]
  · intro hlt hone
    rw [← hlength] at hlt
    exact ⟨h.complete hlt, h.last_pos hlt (by omega)⟩

/-! ### Factorisation of numbers -/

theorem integer?_eq (x : Float) : integer? x = Real.int? x := by
  unfold integer? Real.int?
  cases Real.truncInt x <;> rfl

/-- An exponent is not larger than the number of bits. -/
theorem Divides.two_pow_le {ps es : List Nat} {n rest : Nat} (h : Divides ps n es rest)
    (hps : ∀ p ∈ ps, 2 ≤ p) (hn : 0 < n) {e : Nat} (he : e ∈ es) : 2 ^ e ≤ n := by
  obtain ⟨i, hi, rfl⟩ := List.mem_iff_getElem.1 he
  have hi' : i < ps.length := hi.trans_le h.length_le
  have hmem : ps[i] ^ es[i] ∈ List.zipWith (· ^ ·) ps es :=
    List.mem_iff_getElem.2 ⟨i, by simp [hi, hi'], by simp⟩
  calc 2 ^ es[i] ≤ ps[i] ^ es[i] := Nat.pow_le_pow_left (hps _ (List.getElem_mem hi')) _
    _ ≤ n := Nat.le_of_dvd hn (h.eq_mul ▸ (List.dvd_prod hmem).mul_left rest)

/-- The exponents are small enough to be exact. -/
theorem int?_of_mem_factoriseNat {x : Float} {n e : Nat} (hx : Real.int? x = some (n : Int)) (hn : 0 < n)
    (he : e ∈ factoriseNat n) : (Number.ofNat e).int? = some (e : Int) := by
  obtain ⟨rest, h⟩ := divides_factoriseNat hn
  have hle : 2 ^ e ≤ n := h.two_pow_le (fun _ hp => (prime_of_mem_primes hp).two_le) hn he
  have hlt : (2 : Rat) ^ (e : Int) < 2 ^ (1024 : Int) := by
    refine lt_of_le_of_lt ?_ (Real.natAbs_lt_of_int? hx)
    rw [zpow_natCast, Int.natAbs_natCast]
    exact_mod_cast hle
  have he1024 := (zpow_lt_zpow_iff_right₀ (one_lt_two (α := Rat))).1 hlt
  exact Real.int?_ofNat (by omega)

/-- The factorisation of a positive integer is exact: the exponents are those of the first primes, and what is
left beside them has no factor in the table. -/
theorem factorises_factorise {n : Nat} (hn : 0 < n) :
    (∃ rest, Factorises n (factoriseNat n) rest) ∧
      ∀ a : Number, Real.int? a.re = some (n : Int) →
        (factorise a).map Number.int? = (factoriseNat n).map fun e : Nat => some (e : Int) := by
  refine ⟨exists_factorises hn, fun a ha => ?_⟩
  have hfactorise : factorise a = (factoriseNat n).map Number.ofNat := by
    unfold factorise
    rw [integer?_eq, ha]
    dsimp only
    rw [if_pos (by exact_mod_cast hn), Int.toNat_natCast]
  rw [hfactorise, List.map_map]
  exact List.map_congr_left fun e he => int?_of_mem_factoriseNat ha hn he

/-- The exponents in `360 = 2 ^ 3 * 3 ^ 2 * 5`. -/
theorem factorises_factorise_composite :
    0 < 360 ∧ Real.int? (Number.real 360.0).re = some (360 : Nat) ∧ factoriseNat 360 = [3, 2, 1] ∧
      (∃ rest, Factorises 360 (factoriseNat 360) rest) ∧
      (factorise (.real 360.0)).map Number.int? = [some 3, some 2, some 1] := by
  have hn : 0 < 360 := by decide
  have ha : Real.int? (Number.real 360.0).re = some (360 : Nat) := by decide +kernel
  have hexponents : factoriseNat 360 = [3, 2, 1] := by decide +kernel
  obtain ⟨hrest, hall⟩ := factorises_factorise hn
  have hfactorise := hall _ ha
  rw [hexponents] at hfactorise
  exact ⟨hn, ha, hexponents, hrest, hfactorise⟩

end Number

end MathExpr
