import MathExpr.Proofs.ExactArithmetic
import MathExpr.Proofs.SoundRules
import Mathlib.Data.PNat.Basic

/-!
# Magnitudes

The magnitude of a tree of arithmetic bounds the size of all its intermediate results when
its names stand for one: numbers are taken without their signs and differences as sums,
and nothing is smaller than one. What is evaluated in floating-point numbers is exact
where the magnitude is not larger than `2 ^ 53` (`Tree.computesExactly_of_magnitude`).
-/

namespace MathExpr

namespace Interpretation

/-- The size of an integer, or one if it is zero. -/
def size (n : Int) : ℕ+ := ⟨max 1 n.natAbs, by omega⟩

/-- Numbers without their signs, and sums in place of differences. -/
def magnitudes : Interpretation ℕ+ where
  number n := n.int?.map size
  name _ := some 1
  add := (· + ·)
  sub := (· + ·)
  mul := (· * ·)
  neg := id

theorem isFaithful_magnitudes : magnitudes.IsFaithful where
  integer n k h := ⟨size k, congrArg (Option.map size) h⟩
  complex _ := rfl
  name _ := ⟨1, rfl⟩
  eq m n a b h ha hb := by
    obtain ⟨j, hj, rfl⟩ := Option.map_eq_some_iff.1 ha
    obtain ⟨k, hk, rfl⟩ := Option.map_eq_some_iff.1 hb
    rw [Number.int?_eq_of_eq h hj hk]

theorem comparison_magnitudes : magnitudes.Comparison (· ≤ ·) where
  refl := le_refl
  trans _ _ _ := le_trans
  add _ _ _ _ := add_le_add
  sub _ _ _ _ := add_le_add
  mul _ _ _ _ := mul_le_mul'
  neg _ _ h := h

theorem le_of_operator? {symbol : String} {as : List ℕ+} {a : ℕ+}
    (h : magnitudes.operator? symbol as = some a) : ∀ b ∈ as, b ≤ a := by
  unfold operator? at h
  split at h
  · have ha : ∀ b : ℕ+, b = a → ∀ c ∈ [b], c ≤ a := fun b hb c hc => by
      rw [List.mem_singleton.1 hc, hb]
    split_ifs at h <;> exact ha _ (Option.some.inj h)
  · rename_i b c
    have hadd : ∀ d ∈ [b, c], d ≤ b + c := fun d hd => by
      rcases List.mem_pair.1 hd with rfl | rfl
      · exact (PNat.lt_add_right d c).le
      · exact (PNat.lt_add_left d b).le
    have hmul : ∀ d ∈ [b, c], d ≤ b * c := fun d hd => by
      rcases List.mem_pair.1 hd with rfl | rfl
      · exact le_mul_of_one_le_right' one_le
      · exact le_mul_of_one_le_left' one_le
    split_ifs at h <;> cases h
    · exact hadd
    · exact hadd
    · exact hmul
  · cases h

/-- Operations on integers are exact where the magnitude is not larger than `2 ^ 53`. -/
theorem exact_operator? {symbol : String} {xs : List Float} {ns : List Int} {ms : List ℕ+}
    {x : Float} {m : ℕ+} (hx : floats.operator? symbol xs = some x)
    (hm : magnitudes.operator? symbol ms = some m) (hmax : (m : ℕ) ≤ 2 ^ 53)
    (hints : List.Forall₂ (fun x n => Real.int? x = some n) xs ns)
    (hbounds : List.Forall₂ (fun n (m : ℕ+) => n.natAbs ≤ (m : ℕ)) ns ms) :
    ∃ n, Real.int? x = some n ∧ n.natAbs ≤ (m : ℕ) ∧ ∀ ρ, (integers ρ).operator? symbol ns = some n := by
  unfold operator? at hx hm ⊢
  rcases hints with _ | @⟨y, b, _, _, hfirst, _ | @⟨y', b', _, _, hsecond, _ | ⟨hthird, hrest⟩⟩⟩
  · cases hx
  · rcases hbounds with _ | ⟨hle, _ | _⟩
    simp only at hx hm ⊢
    split_ifs at hx hm ⊢ <;> cases hx <;> cases hm
    · exact ⟨_, hfirst, hle, fun _ => rfl⟩
    · refine ⟨_, Real.int?_neg hfirst, ?_, fun _ => rfl⟩
      rw [Int.natAbs_neg]
      exact hle
  · rcases hbounds with _ | @⟨_, k, _, _, hle, _ | @⟨_, k', _, _, hle', _ | _⟩⟩
    simp only at hx hm ⊢
    split_ifs at hx hm ⊢ <;> cases hx <;> cases hm
    · have hbound : (b + b').natAbs ≤ (k + k' : ℕ+) :=
        (Int.natAbs_add_le b b').trans (by rw [PNat.add_coe]; omega)
      exact ⟨_, Real.int?_add hfirst hsecond (hbound.trans hmax), hbound, fun _ => rfl⟩
    · have hbound : (b - b').natAbs ≤ (k + k' : ℕ+) :=
        (Int.natAbs_sub_le b b').trans (by rw [PNat.add_coe]; omega)
      exact ⟨_, Real.int?_sub hfirst hsecond (hbound.trans hmax), hbound, fun _ => rfl⟩
    · have hbound : (b * b').natAbs ≤ (k * k' : ℕ+) := by
        rw [Int.natAbs_mul, PNat.mul_coe]
        exact Nat.mul_le_mul hle hle'
      exact ⟨_, Real.int?_mul hfirst hsecond (hbound.trans hmax), hbound, fun _ => rfl⟩
  · cases hx

end Interpretation

namespace Tree

/-- A bound on the size of all intermediate results of a tree of arithmetic. -/
def magnitude? (t : Tree) : Option ℕ+ := t.interpret .magnitudes

mutual

/-- A tree without names comes to the integer that it means where its magnitude is not larger
than `2 ^ 53`. -/
theorem exists_int?_of_magnitude : (t : Tree) → ∀ x m, t.float? = some x → t.magnitude? = some m →
    (m : ℕ) ≤ 2 ^ 53 → ∃ n, Real.int? x = some n ∧ n.natAbs ≤ (m : ℕ) ∧ ∀ ρ, t.meaning ρ = some n
  | .leaf v, x, m, hx, hm, hmax => by
      cases v with
      | number a =>
          cases a with
          | real y =>
              cases hx
              obtain ⟨n, hn, rfl⟩ := Option.map_eq_some_iff.1 hm
              exact ⟨n, hn, le_max_right 1 n.natAbs, fun _ => hn⟩
          | complex z => cases hx
      | _ => cases hx
  | .node h args, x, m, hx, hm, hmax => by
      obtain ⟨o, xs, rfl, hxs, hx⟩ := interpret_node_eq_some.1 hx
      obtain ⟨o', ms, ho, hms, hm⟩ := interpret_node_eq_some.1 hm
      cases ho
      have hall : ∀ k ∈ ms, (k : ℕ) ≤ 2 ^ 53 := fun k hk =>
        (PNat.coe_le_coe _ _ |>.2 (Interpretation.le_of_operator? hm k hk)).trans hmax
      obtain ⟨ns, hints, hbounds, hmeanings⟩ := exists_forall₂_int?_of_magnitude args xs ms hxs hms hall
      obtain ⟨n, hn, hbound, hmeaning⟩ :=
        Interpretation.exact_operator? hx hm hmax hints hbounds
      exact ⟨n, hn, hbound, fun ρ =>
        interpret_node_eq_some.2 ⟨o, ns, rfl, hmeanings ρ, hmeaning ρ⟩⟩

theorem exists_forall₂_int?_of_magnitude : (ts : List Tree) → ∀ xs ms,
    interpretAll .floats ts = some xs → interpretAll .magnitudes ts = some ms →
      (∀ m ∈ ms, (m : ℕ) ≤ 2 ^ 53) → ∃ ns,
        List.Forall₂ (fun x n => Real.int? x = some n) xs ns ∧
        List.Forall₂ (fun n (m : ℕ+) => n.natAbs ≤ (m : ℕ)) ns ms ∧
        ∀ ρ, interpretAll (.integers ρ) ts = some ns
  | [], xs, ms, hxs, hms, hmax => by
      cases hxs
      cases hms
      exact ⟨[], .nil, .nil, fun _ => rfl⟩
  | t :: ts, xs, ms, hxs, hms, hmax => by
      obtain ⟨x, xs', hx, hxs', rfl⟩ := interpretAll_cons_eq_some.1 hxs
      obtain ⟨m, ms', hm, hms', rfl⟩ := interpretAll_cons_eq_some.1 hms
      obtain ⟨n, hn, hbound, hmeaning⟩ :=
        exists_int?_of_magnitude t x m hx hm (hmax m List.mem_cons_self)
      obtain ⟨ns, hints, hbounds, hmeanings⟩ := exists_forall₂_int?_of_magnitude ts xs' ms' hxs' hms'
        fun k hk => hmax k (List.mem_cons_of_mem m hk)
      exact ⟨n :: ns, .cons hn hints, .cons hbound hbounds, fun ρ =>
        interpretAll_cons_eq_some.2 ⟨n, ns, hmeaning ρ, hmeanings ρ, rfl⟩⟩

end

/-- The floating-point number that a tree comes to, if it comes to one, is the integer that it
means. -/
def ComputesExactly (t : Tree) : Prop :=
  ∀ x, t.float? = some x → ∀ ρ, (Tree.leaf (Evaluate.number x)).meaning ρ = t.meaning ρ

theorem computesExactly_of_magnitude {t : Tree} {m : ℕ+} (hm : t.magnitude? = some m)
    (hmax : (m : ℕ) ≤ 2 ^ 53) : t.ComputesExactly := by
  intro x hx ρ
  obtain ⟨n, hn, -, hmeaning⟩ := exists_int?_of_magnitude t x m hx hm hmax
  exact Eq.trans hn (hmeaning ρ).symm

/-- Calculating does not make a tree larger where its magnitude is not larger than `2 ^ 53`. -/
theorem settles_of_magnitude {t : Tree} {m : ℕ+} (hm : t.magnitude? = some m)
    (hmax : (m : ℕ) ≤ 2 ^ 53) : t.Settles .magnitudes (· ≤ ·) := by
  intro x hx k hk
  obtain ⟨n, hn, hbound, -⟩ := exists_int?_of_magnitude t x m hx hm hmax
  have hkm : k = m := Option.some.inj (hk.symm.trans hm)
  refine ⟨Interpretation.size n, congrArg (Option.map Interpretation.size) hn, ?_⟩
  rw [hkm]
  exact PNat.coe_le_coe _ _ |>.1 (max_le m.pos hbound)

mutual

/-- The parts of a tree are not larger than the tree. -/
theorem magnitude?_of_mem_subtrees {v : Tree} : (t : Tree) → v ∈ t.subtrees → ∀ m,
    t.magnitude? = some m → ∃ k, v.magnitude? = some k ∧ k ≤ m
  | .leaf w, hv, m, hm => by
      rw [List.mem_singleton.1 hv]
      exact ⟨m, hm, le_refl m⟩
  | .node h args, hv, m, hm => by
      rcases List.mem_cons.1 hv with rfl | hmem
      · exact ⟨m, hm, le_refl m⟩
      · obtain ⟨o, ms, rfl, hms, hm⟩ := interpret_node_eq_some.1 hm
        obtain ⟨k, j, hk, hj, hkj⟩ := magnitude?_of_mem_subtreesOf args hmem ms hms
        exact ⟨k, hk, hkj.trans (Interpretation.le_of_operator? hm j hj)⟩

theorem magnitude?_of_mem_subtreesOf {v : Tree} : (ts : List Tree) → v ∈ subtreesOf ts → ∀ ms,
    interpretAll .magnitudes ts = some ms →
      ∃ k m, v.magnitude? = some k ∧ m ∈ ms ∧ k ≤ m
  | [], hv, ms, hms => by cases hv
  | t :: ts, hv, ms, hms => by
      obtain ⟨m, ms', hm, hms', rfl⟩ := interpretAll_cons_eq_some.1 hms
      rcases List.mem_append.1 hv with hv | hv
      · obtain ⟨k, hk, hle⟩ := magnitude?_of_mem_subtrees t hv m hm
        exact ⟨k, m, hk, List.mem_cons_self, hle⟩
      · obtain ⟨k, j, hk, hj, hle⟩ := magnitude?_of_mem_subtreesOf ts hv ms' hms'
        exact ⟨k, j, hk, List.mem_cons_of_mem m hj, hle⟩

end

variable {found : Captures}

mutual

/-- What is evaluated in a tree with captures filled in is not larger than the tree without
evaluation. -/
theorem magnitude?_of_mem_evalArguments {c : Tree} : (q : Tree) →
    c ∈ (q.fill found).evalArguments → ∀ m,
      q.withoutEval.interpret (Interpretation.filled .magnitudes found) = some m →
        ∃ k, c.magnitude? = some k ∧ k ≤ m
  | .leaf v, hc, m, hm => by
      have hfill : ((Tree.leaf v).fill found).magnitude? = some m :=
        (interpret_fill _ found _).trans hm
      rw [evalArguments_of_interpret _ m hfill] at hc
      cases hc
  | .node (.op o) args, hc, m, hm => by
      obtain ⟨ms, hms, hm⟩ := Option.bind_eq_some_iff.1 hm
      obtain ⟨k, j, hk, hj, hkj⟩ := magnitude?_of_mem_evalArgumentsOf args hc ms hms
      exact ⟨k, hk, hkj.trans (Interpretation.le_of_operator? hm j hj)⟩
  | .node (.call name) args, hc, m, hm => by
      unfold withoutEval at hm
      split at hm
      · cases ‹Tree.node (.call name) args = _›
      · rename_i t heq
        cases heq
        rw [List.mem_singleton.1 hc]
        exact ⟨m, (interpret_fill _ found t).trans hm, le_refl m⟩
      · rename_i heq
        cases heq
        cases hm
  | .node .list args, hc, m, hm => by cases hm

theorem magnitude?_of_mem_evalArgumentsOf {c : Tree} : (qs : List Tree) →
    c ∈ evalArgumentsOf (fillAll found qs) → ∀ ms,
      interpretAll (Interpretation.filled .magnitudes found) (withoutEvalOf qs) = some ms →
        ∃ k m, c.magnitude? = some k ∧ m ∈ ms ∧ k ≤ m
  | [], hc, ms, hms => by cases hc
  | q :: qs, hc, ms, hms => by
      obtain ⟨m, ms', hm, hms', rfl⟩ := interpretAll_cons_eq_some.1 hms
      rcases List.mem_append.1 hc with hc | hc
      · obtain ⟨k, hk, hle⟩ := magnitude?_of_mem_evalArguments q hc m hm
        exact ⟨k, m, hk, List.mem_cons_self, hle⟩
      · obtain ⟨k, j, hk, hj, hle⟩ := magnitude?_of_mem_evalArgumentsOf qs hc ms' hms'
        exact ⟨k, j, hk, List.mem_cons_of_mem m hj, hle⟩

end

end Tree

/-! ### Rules that do not make trees larger -/

namespace Interpretation

/-- The magnitude of a tree as a polynomial in its names less one. -/
def magnitudePolynomials : Interpretation Poly where
  number n := n.int?.map fun k => Poly.const (size k)
  name key := some (Poly.const 1 ++ Poly.var key)
  add p q := p ++ q
  sub p q := p ++ q
  mul := Poly.mul
  neg := id

/-- Magnitudes as integers. -/
def magnitudeIntegers (σ : String → Int) : Interpretation Int where
  number n := n.int?.map fun k => (size k : Int)
  name key := some (1 + σ key)
  add := (· + ·)
  sub := (· + ·)
  mul := (· * ·)
  neg := id

theorem leads_magnitudePolynomials (σ : String → Int) :
    Leads (Poly.eval σ) magnitudePolynomials (magnitudeIntegers σ) where
  number n := by
    show n.int?.map _ = (n.int?.map _).map _
    cases n.int? with
    | none => rfl
    | some k => exact congrArg some (Poly.eval_const σ _).symm
  name key := by
    show some (1 + σ key) = some (Poly.eval σ (Poly.const 1 ++ Poly.var key))
    rw [Poly.eval_append, Poly.eval_const, Poly.eval_var]
  add p q := Poly.eval_append σ p q
  sub p q := Poly.eval_append σ p q
  mul p q := Poly.eval_mul σ p q
  neg p := rfl

theorem leads_magnitudes (σ : String → ℕ+) :
    Leads (fun m : ℕ+ => (m : Int)) (magnitudes.assign σ)
      (magnitudeIntegers fun key => (σ key : Int) - 1) where
  number n := by
    show n.int?.map _ = (n.int?.map _).map _
    cases n.int? <;> rfl
  name key := congrArg some (by omega : (1 + ((σ key : Int) - 1)) = σ key)
  add _ _ := by
    show ((_ + _ : ℕ+) : Int) = _
    push_cast
    rfl
  sub _ _ := by
    show ((_ + _ : ℕ+) : Int) = _
    push_cast
    rfl
  mul _ _ := by
    show ((_ * _ : ℕ+) : Int) = _
    push_cast
    rfl
  neg _ := rfl

end Interpretation

namespace Rule

/-- Whether the result of a rule is not larger than what the rule applies to: its pattern matches no
arithmetic, or no coefficient in the magnitude of the result is larger than in that of the
pattern. -/
def shrinks (r : Rule) : Bool :=
  r.pattern.isForeign ||
    match r.pattern.interpret .magnitudePolynomials,
      r.result.withoutEval.interpret .magnitudePolynomials with
    | some p, some q => Poly.atMost q p
    | _, _ => false

theorem keeps_of_shrinks {r : Rule} (hr : r.shrinks = true)
    (hpolynomial : r.pattern.isForeign = true ∨ ∃ p, r.pattern.interpret .polynomials = some p) :
    r.Keeps .magnitudes (· ≤ ·) := by
  unfold shrinks at hr
  rcases hpolynomial with hforeign | hpolynomial
  · exact .inl hforeign
  rcases Bool.or_eq_true_iff.1 hr with hforeign | hr
  · exact .inl hforeign
  refine .inr ⟨hpolynomial, fun σ m hm => ?_⟩
  have hnonneg : ∀ key, (0 : Int) ≤ (σ key : Int) - 1 := fun key => by
    have := (σ key).pos
    omega
  split at hr
  · rename_i p q hp hq
    have hpattern := Pattern.interpret_map
      (Interpretation.leads_magnitudePolynomials fun key => (σ key : Int) - 1) r.pattern
    have hresult := Tree.interpret_map
      (Interpretation.leads_magnitudePolynomials fun key => (σ key : Int) - 1) r.result.withoutEval
    rw [Pattern.interpret_map (Interpretation.leads_magnitudes σ), hm, hp] at hpattern
    rw [Tree.interpret_map (Interpretation.leads_magnitudes σ), hq] at hresult
    obtain ⟨k, hk, hkq⟩ := Option.map_eq_some_iff.1 hresult
    refine ⟨k, hk, ?_⟩
    have hle := Poly.eval_le_of_atMost _ hr hnonneg
    have hmp : (m : Int) = _ := Option.some.inj hpattern
    rw [← hkq, ← hmp] at hle
    exact PNat.coe_le_coe _ _ |>.1 (by exact_mod_cast hle)
  · cases hr

end Rule

end MathExpr
