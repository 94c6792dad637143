import MathExpr.Proofs.PolynomialRules

/-!
# Arithmetic without names

A tree of integers, sums, differences, products and signs without names stands for an
integer (`Tree.integer?`). It evaluates to this integer where it and its parts only stand
for integers up to `2 ^ 53` in magnitude (`Evaluate.tree_of_integer?`), and the built-in
rules for sums and products make of it a tree that stands for the same integer
(`Simplify.FiresAt.integer?_eq`): no rule brings in a name.
-/

namespace MathExpr

open MathExpr.Action (runFrom)

variable {α β : Type}

/-- Two lists are related, element by element, if each element of the first has a partner. -/
theorem exists_forall₂_iff {P : α → β → Prop} {as : List α} :
    (∃ bs, List.Forall₂ P as bs) ↔ ∀ a ∈ as, ∃ b, P a b := by
  induction as with
  | nil => exact ⟨fun _ _ ha => absurd ha List.not_mem_nil, fun _ => ⟨[], .nil⟩⟩
  | cons a as ih =>
      rw [List.forall_mem_cons, ← ih]
      constructor
      · rintro ⟨_, _ | ⟨hb, hbs⟩⟩
        exact ⟨⟨_, hb⟩, _, hbs⟩
      · rintro ⟨⟨b, hb⟩, bs, hbs⟩
        exact ⟨b :: bs, .cons hb hbs⟩

/-! ### Interpretations -/

namespace Interpretation

/-- What two interpretations give, in pairs. -/
def prod (I : Interpretation α) (J : Interpretation β) : Interpretation (α × β) where
  number n := (I.number n).bind fun a => (J.number n).map fun b => (a, b)
  name key := (I.name key).bind fun a => (J.name key).map fun b => (a, b)
  add p q := (I.add p.1 q.1, J.add p.2 q.2)
  sub p q := (I.sub p.1 q.1, J.sub p.2 q.2)
  mul p q := (I.mul p.1 q.1, J.mul p.2 q.2)
  neg p := (I.neg p.1, J.neg p.2)

theorem Leads.prod {γ δ : Type} {f : α → β} {g : γ → δ} {I : Interpretation α}
    {J : Interpretation β} {K : Interpretation γ} {L : Interpretation δ} (h : Leads f I J)
    (h' : Leads g K L) : Leads (Prod.map f g) (I.prod K) (J.prod L) where
  number n := by
    show (J.number n).bind _ = ((I.number n).bind _).map _
    rw [h.number, h'.number]
    cases I.number n <;> cases K.number n <;> rfl
  name key := by
    show (J.name key).bind _ = ((I.name key).bind _).map _
    rw [h.name, h'.name]
    cases I.name key <;> cases K.name key <;> rfl
  add p q := Prod.ext (h.add p.1 q.1) (h'.add p.2 q.2)
  sub p q := Prod.ext (h.sub p.1 q.1) (h'.sub p.2 q.2)
  mul p q := Prod.ext (h.mul p.1 q.1) (h'.mul p.2 q.2)
  neg p := Prod.ext (h.neg p.1) (h'.neg p.2)

/-- The names of a tree. -/
def names : Interpretation (List String) where
  number n := n.int?.map fun _ => []
  name key := some [key]
  add := (· ++ ·)
  sub := (· ++ ·)
  mul := (· ++ ·)
  neg := id

/-- Whether a tree has no names. -/
def closed : Interpretation Bool where
  number n := n.int?.map fun _ => true
  name _ := some false
  add := (· && ·)
  sub := (· && ·)
  mul := (· && ·)
  neg := id

/-- A tree has no names in the end if none of its names brings in one. -/
theorem leads_names (σ : String → Bool) : Leads (fun keys => keys.all σ) names (closed.assign σ) where
  number n := by
    show n.int?.map _ = (n.int?.map _).map _
    cases n.int? <;> rfl
  name key := by
    show some (σ key) = some ([key].all σ)
    rw [List.all_cons, List.all_nil, Bool.and_true]
  add _ _ := List.all_append
  sub _ _ := List.all_append
  mul _ _ := List.all_append
  neg _ := rfl

/-- The integer that a tree stands for where its names stand for zero, and whether it has no names. -/
def closedIntegers : Interpretation (Int × Bool) := (integers fun _ => 0).prod closed

theorem isFaithful_closedIntegers : closedIntegers.IsFaithful where
  integer n k h := ⟨(k, true), by
    show n.int?.bind _ = _
    rw [h]
    show (n.int?.map _).map _ = _
    rw [h]
    rfl⟩
  complex _ := rfl
  eq m n a b h ha hb := by
    obtain ⟨j, hj, ha⟩ := Option.bind_eq_some_iff.1 ha
    obtain ⟨k, hk, hb⟩ := Option.bind_eq_some_iff.1 hb
    change m.int? = some j at hj
    change n.int? = some k at hk
    change (m.int?.map _).map _ = _ at ha
    change (n.int?.map _).map _ = _ at hb
    rw [hj] at ha
    rw [hk] at hb
    rw [← Option.some.inj ha, ← Option.some.inj hb, Number.int?_eq_of_eq h hj hk]
  name _ := ⟨(0, false), rfl⟩

/-- Standing for the same integer, and having no names if the other has none. -/
def Refines (b a : Int × Bool) : Prop := b.1 = a.1 ∧ (a.2 = true → b.2 = true)

theorem Refines.eq_closed {b : Int × Bool} {n : Int} (h : Refines b (n, true)) : b = (n, true) :=
  Prod.ext h.1 (h.2 rfl)

theorem comparison_closedIntegers : closedIntegers.Comparison Refines where
  refl _ := ⟨rfl, id⟩
  trans _ _ _ h h' := ⟨h.1.trans h'.1, h.2 ∘ h'.2⟩
  add _ _ _ _ h h' := ⟨congrArg₂ (· + ·) h.1 h'.1, fun hclosed => by
    obtain ⟨ha, hb⟩ := Bool.and_eq_true_iff.1 hclosed
    exact Bool.and_eq_true_iff.2 ⟨h.2 ha, h'.2 hb⟩⟩
  sub _ _ _ _ h h' := ⟨congrArg₂ (· - ·) h.1 h'.1, fun hclosed => by
    obtain ⟨ha, hb⟩ := Bool.and_eq_true_iff.1 hclosed
    exact Bool.and_eq_true_iff.2 ⟨h.2 ha, h'.2 hb⟩⟩
  mul _ _ _ _ h h' := ⟨congrArg₂ (· * ·) h.1 h'.1, fun hclosed => by
    obtain ⟨ha, hb⟩ := Bool.and_eq_true_iff.1 hclosed
    exact Bool.and_eq_true_iff.2 ⟨h.2 ha, h'.2 hb⟩⟩
  neg _ _ h := ⟨congrArg (- ·) h.1, h.2⟩

/-- Of operands without names, an operator stands for its arithmetic. -/
theorem operator?_closed (symbol : String) (ns : List Int) :
    closedIntegers.operator? symbol (ns.map (·, true)) =
      ((integers fun _ => 0).operator? symbol ns).map (·, true) := by
  unfold operator?
  match ns with
  | [] => rfl
  | [a] =>
      simp only [List.map_cons, List.map_nil]
      split_ifs <;> rfl
  | [a, b] =>
      simp only [List.map_cons, List.map_nil]
      split_ifs <;> rfl
  | a :: b :: c :: rest => rfl

/-- An operator brings together no names only if none of its operands has one. -/
theorem exists_of_operator?_closed {symbol : String} {as : List (Int × Bool)} {n : Int}
    (h : closedIntegers.operator? symbol as = some (n, true)) : ∃ ns : List Int, as = ns.map (·, true) := by
  unfold operator? at h
  split at h
  · rename_i a
    have ha : a.2 = true := by split_ifs at h <;> exact congrArg Prod.snd (Option.some.inj h)
    exact ⟨[a.1], congrArg (fun b => [(a.1, b)]) ha⟩
  · rename_i a b
    have hab : (a.2 && b.2) = true := by split_ifs at h <;> exact congrArg Prod.snd (Option.some.inj h)
    obtain ⟨ha, hb⟩ := Bool.and_eq_true_iff.1 hab
    exact ⟨[a.1, b.1], congrArg₂ (fun p q => [(a.1, p), (b.1, q)]) ha hb⟩
  · cases h

/-- Operations on integers are exact where the result is not larger than `2 ^ 53`. -/
theorem exists_floats_operator? {symbol : String} {xs : List Float} {ns : List Int} {n : Int}
    (hn : (integers fun _ => 0).operator? symbol ns = some n) (hmax : n.natAbs ≤ 2 ^ 53)
    (hints : List.Forall₂ (fun x n => Real.int? x = some n) xs ns) :
    ∃ x, floats.operator? symbol xs = some x ∧ Real.int? x = some n := by
  unfold operator? at hn ⊢
  rcases hints with _ | ⟨hfirst, _ | ⟨hsecond, _ | ⟨hthird, hrest⟩⟩⟩
  · cases hn
  · simp only at hn ⊢
    split_ifs at hn ⊢ <;> cases hn
    · exact ⟨_, rfl, hfirst⟩
    · exact ⟨_, rfl, Real.int?_neg hfirst⟩
  · simp only at hn ⊢
    split_ifs at hn ⊢ <;> cases hn
    · exact ⟨_, rfl, Real.int?_add hfirst hsecond hmax⟩
    · exact ⟨_, rfl, Real.int?_sub hfirst hsecond hmax⟩
    · exact ⟨_, rfl, Real.int?_mul hfirst hsecond hmax⟩
  · cases hn

end Interpretation

/-! ### Trees -/

namespace Tree

/-- The integer that a tree stands for, if it is made of integers, sums, differences, products and
signs, without names. -/
def integer? (t : Tree) : Option Int :=
  match t.interpret .closedIntegers with
  | some (n, true) => some n
  | _ => none

theorem integer?_eq_some {t : Tree} {n : Int} :
    t.integer? = some n ↔ t.interpret .closedIntegers = some (n, true) := by
  unfold integer?
  constructor
  · intro h
    split at h
    · rename_i k hk
      rw [hk, Option.some.inj h]
    · cases h
  · intro h
    rw [h]

theorem integer?_real (x : Float) : (Tree.leaf (Evaluate.number x)).integer? = Real.int? x := by
  unfold integer?
  have hx : (Tree.leaf (Evaluate.number x)).interpret .closedIntegers =
      (Real.int? x).map fun n => (n, true) := by
    show (Real.int? x).bind (fun n => ((Real.int? x).map fun _ => true).map fun b => (n, b)) = _
    cases Real.int? x <;> rfl
  rw [hx]
  cases Real.int? x <;> rfl

/-- A tree that stands for an integer is an integer, or an operator whose operands stand for
integers. -/
theorem integer?_node_eq_some {h : Head} {args : List Tree} {n : Int} :
    (Tree.node h args).integer? = some n ↔ ∃ o ns, h = .op o ∧
      List.Forall₂ (fun t n => t.integer? = some n) args ns ∧
      (Interpretation.integers fun _ => 0).operator? o.symbol ns = some n := by
  have hall : ∀ (ts : List Tree) (ns : List Int),
      interpretAll .closedIntegers ts = some (ns.map (·, true)) ↔
        List.Forall₂ (fun t n => t.integer? = some n) ts ns := by
    intro ts
    induction ts with
    | nil =>
        intro ns
        cases ns with
        | nil => exact ⟨fun _ => .nil, fun _ => rfl⟩
        | cons n ns => constructor <;> intro h <;> cases h
    | cons t ts ih =>
        intro ns
        rw [interpretAll_cons_eq_some]
        constructor
        · rintro ⟨a, rest, ha, hrest, heq⟩
          cases ns with
          | nil => cases heq
          | cons n ns =>
              cases heq
              exact .cons (integer?_eq_some.2 ha) ((ih ns).1 hrest)
        · rintro (_ | ⟨ht, hts⟩)
          exact ⟨_, _, integer?_eq_some.1 ht, (ih _).2 hts, rfl⟩
  rw [integer?_eq_some, interpret_node_eq_some]
  constructor
  · rintro ⟨o, as, rfl, has, ha⟩
    obtain ⟨ns, rfl⟩ := Interpretation.exists_of_operator?_closed ha
    rw [Interpretation.operator?_closed] at ha
    obtain ⟨k, hk, heq⟩ := Option.map_eq_some_iff.1 ha
    cases heq
    exact ⟨o, ns, rfl, (hall args ns).1 has, hk⟩
  · rintro ⟨o, ns, rfl, hns, hn⟩
    refine ⟨o, ns.map (·, true), rfl, (hall args ns).2 hns, ?_⟩
    rw [Interpretation.operator?_closed, hn]
    rfl

/-- The tree and its parts only stand for integers up to `2 ^ 53` in magnitude. -/
def StaysSmall (t : Tree) : Prop :=
  ∀ v ∈ t.subtrees, ∀ n, v.integer? = some n → n.natAbs ≤ 2 ^ 53

theorem StaysSmall.of_mem {h : Head} {args : List Tree} (hsmall : StaysSmall (.node h args)) {t : Tree}
    (ht : t ∈ args) : t.StaysSmall :=
  fun v hv => hsmall v (subtrees_of_mem ht hv)

mutual

/-- A tree that stands for an integer comes to this integer where it stays small. -/
theorem exists_float?_of_integer? : (t : Tree) → ∀ n, t.integer? = some n → t.StaysSmall →
    ∃ x, t.float? = some x ∧ Real.int? x = some n
  | .leaf v, n, hn, hsmall => by
      cases v with
      | number a =>
          cases a with
          | real x => exact ⟨x, rfl, (integer?_real x).symm.trans hn⟩
          | complex z => cases hn
      | _ => cases hn
  | .node h args, n, hn, hsmall => by
      have hmax := hsmall _ (mem_subtrees_self _) n hn
      obtain ⟨o, ns, rfl, hns, hn⟩ := integer?_node_eq_some.1 hn
      obtain ⟨xs, hxs, hints⟩ :=
        exists_floats_of_integer? args ns hns fun t ht => hsmall.of_mem ht
      obtain ⟨x, hx, hint⟩ := Interpretation.exists_floats_operator? hn hmax hints
      exact ⟨x, interpret_node_eq_some.2 ⟨o, xs, rfl, hxs, hx⟩, hint⟩

theorem exists_floats_of_integer? : (ts : List Tree) → ∀ ns,
    List.Forall₂ (fun t n => t.integer? = some n) ts ns → (∀ t ∈ ts, t.StaysSmall) →
      ∃ xs, interpretAll .floats ts = some xs ∧
        List.Forall₂ (fun x n => Real.int? x = some n) xs ns
  | [], _, .nil, _ => ⟨[], rfl, .nil⟩
  | t :: ts, n :: ns, .cons hn hns, hsmall => by
      obtain ⟨x, hx, hint⟩ := exists_float?_of_integer? t n hn (hsmall t List.mem_cons_self)
      obtain ⟨xs, hxs, hints⟩ :=
        exists_floats_of_integer? ts ns hns fun u hu => hsmall u (List.mem_cons_of_mem t hu)
      exact ⟨x :: xs, interpretAll_cons_eq_some.2 ⟨x, xs, hx, hxs, rfl⟩, .cons hint hints⟩

end

mutual

/-- A tree that comes to a number has no names. -/
theorem closed_of_float? : (t : Tree) → ∀ x a, t.float? = some x →
    t.interpret .closedIntegers = some a → a.2 = true
  | .leaf v, x, a, hx, ha => by
      cases v with
      | number b =>
          obtain ⟨n, -, ha⟩ := Option.bind_eq_some_iff.1 ha
          obtain ⟨b, hb, rfl⟩ := Option.map_eq_some_iff.1 ha
          obtain ⟨-, -, rfl⟩ := Option.map_eq_some_iff.1 hb
          rfl
      | _ => cases hx
  | .node h args, x, a, hx, ha => by
      obtain ⟨o, xs, rfl, hxs, -⟩ := interpret_node_eq_some.1 hx
      obtain ⟨o', as, ho, has, ha⟩ := interpret_node_eq_some.1 ha
      obtain ⟨ns, rfl⟩ := closed_of_floats args xs as hxs has
      rw [Interpretation.operator?_closed] at ha
      obtain ⟨n, -, rfl⟩ := Option.map_eq_some_iff.1 ha
      rfl

theorem closed_of_floats : (ts : List Tree) → ∀ xs as, interpretAll .floats ts = some xs →
    interpretAll .closedIntegers ts = some as → ∃ ns : List Int, as = ns.map (·, true)
  | [], xs, as, hxs, has => by
      cases has
      exact ⟨[], rfl⟩
  | t :: ts, xs, as, hxs, has => by
      obtain ⟨x, xs', hx, hxs', rfl⟩ := interpretAll_cons_eq_some.1 hxs
      obtain ⟨a, as', ha, has', rfl⟩ := interpretAll_cons_eq_some.1 has
      obtain ⟨ns, rfl⟩ := closed_of_floats ts xs' as' hxs' has'
      exact ⟨a.1 :: ns, congrArg (· :: _) (Prod.ext rfl (closed_of_float? t x a hx ha))⟩

end

/-- Calculating is exact where a tree stays small. -/
theorem settles_of_staysSmall {t : Tree} (hsmall : t.StaysSmall) :
    t.Settles .closedIntegers Interpretation.Refines := by
  intro x hx a ha
  have hclosed := closed_of_float? t x a hx ha
  have hinteger : t.integer? = some a.1 :=
    integer?_eq_some.2 (ha.trans (congrArg some (Prod.ext rfl hclosed)))
  obtain ⟨y, hy, hint⟩ := exists_float?_of_integer? t a.1 hinteger hsmall
  cases hx.symm.trans hy
  exact ⟨(a.1, true), integer?_eq_some.1 ((integer?_real x).trans hint), rfl, fun _ => rfl⟩

end Tree

namespace Evaluate

variable {deeper : Evaluator} {s : Scope}

/-- An operator that is no construct is applied to the values of its operands. -/
theorem tree_op {o : Operator} (ho : Construct.ofName? (Text.lower o.symbol) = none)
    (allowUnbound : Bool) (args : List Tree) :
    tree deeper s allowUnbound (.node (.op o) args) = (do
      dispatch deeper s (.op o) o.symbol (← trees deeper s allowUnbound args)) := by
  have hname : (Head.op o).key?.bind Construct.ofName? = none := ho
  rw [tree]
  simp only [Head.name?, hname]

mutual

/-- A tree of arithmetic without names evaluates to the number that it comes to. -/
theorem tree_of_float? (hs : s.HasArithmetic) : (t : Tree) → ∀ x, t.float? = some x →
    tree deeper s false t = pure (number x)
  | .leaf v, x, hx => by
      cases v with
      | number a =>
          cases a with
          | real y =>
              cases hx
              rfl
          | complex z => cases hx
      | _ => cases hx
  | .node h args, x, hx => by
      obtain ⟨o, xs, rfl, hxs, hx⟩ := Tree.interpret_node_eq_some.1 hx
      rw [tree_op (ofName?_operators _ (Interpretation.mem_operators_of_operator? hx)),
        trees_of_floats hs args xs hxs, pure_bind, dispatch_arithmetic hs _ hx]

theorem trees_of_floats (hs : s.HasArithmetic) : (ts : List Tree) → ∀ xs,
    Tree.interpretAll .floats ts = some xs → trees deeper s false ts = pure (xs.map number)
  | [], xs, hxs => by
      cases hxs
      rfl
  | t :: ts, xs, hxs => by
      obtain ⟨x, xs', hx, hxs', rfl⟩ := Tree.interpretAll_cons_eq_some.1 hxs
      rw [trees, tree_of_float? hs t x hx, trees_of_floats hs ts xs' hxs']
      rfl

end

/-- A tree that stands for an integer evaluates to this integer where it stays small. -/
theorem tree_of_integer? (hs : s.HasArithmetic) {t : Tree} {n : Int} (hn : t.integer? = some n)
    (hsmall : t.StaysSmall) :
    ∃ x, tree deeper s false t = pure (number x) ∧ Real.int? x = some n := by
  obtain ⟨x, hx, hint⟩ := t.exists_float?_of_integer? n hn hsmall
  exact ⟨x, tree_of_float? hs t x hx, hint⟩

end Evaluate

/-! ### Rules -/

namespace Rule

/-- Whether a rule keeps the meaning of what it applies to and brings in no names: its pattern matches
no arithmetic, or pattern and result are the same polynomial, and the pattern has all names of the
result. -/
def preservesClosed (r : Rule) : Bool :=
  r.pattern.isForeign ||
    match r.pattern.interpret (.prod .polynomials .names),
      r.result.withoutEval.interpret (.prod .polynomials .names) with
    | some p, some q => Poly.same p.1 q.1 && q.2.all p.2.contains
    | _, _ => false

theorem keeps_of_preservesClosed {r : Rule} (hr : r.preservesClosed = true)
    (hpolynomial : r.pattern.isForeign = true ∨ ∃ p, r.pattern.interpret .polynomials = some p) :
    r.Keeps .closedIntegers Interpretation.Refines := by
  unfold preservesClosed at hr
  rcases hpolynomial with hforeign | hpolynomial
  · exact .inl hforeign
  rcases Bool.or_eq_true_iff.1 hr with hforeign | hr
  · exact .inl hforeign
  refine .inr ⟨hpolynomial, fun σ a ha => ?_⟩
  split at hr
  · rename_i p q hp hq
    obtain ⟨hsame, hnames⟩ := Bool.and_eq_true_iff.1 hr
    have hleads := (Interpretation.leads_polynomials fun key => (σ key).1).prod
      (Interpretation.leads_names fun key => (σ key).2)
    have hpattern : r.pattern.interpret (Interpretation.closedIntegers.assign σ) = _ :=
      Pattern.interpret_map hleads r.pattern
    have hresult : r.result.withoutEval.interpret (Interpretation.closedIntegers.assign σ) = _ :=
      Tree.interpret_map hleads r.result.withoutEval
    rw [hp, ha] at hpattern
    rw [hq] at hresult
    cases hpattern
    refine ⟨_, hresult, (Poly.eval_eq_of_same _ hsame).symm, fun hclosed => ?_⟩
    refine List.all_eq_true.2 fun key hkey => List.all_eq_true.1 hclosed key ?_
    exact List.contains_iff_mem.1 (List.all_eq_true.1 hnames key hkey)
  · cases hr

end Rule

namespace Library

/-- No rule for sums and products brings in a name. -/
theorem preservesClosed_polynomialRules : ∀ r ∈ polynomialRules, r.preservesClosed = true := by
  have hall : polynomialRules.all Rule.preservesClosed = true := by
    unfold polynomialRules
    rw [rulesets_eq]
    decide +kernel
  exact List.all_eq_true.1 hall

theorem keeps_polynomialRules {r : Rule} (hr : r ∈ polynomialRules) :
    r.Keeps .closedIntegers Interpretation.Refines :=
  Rule.keeps_of_preservesClosed (preservesClosed_polynomialRules r hr)
    (Rule.isForeign_or_of_preserves (preserves_polynomialRules.2.1 r hr))

end Library

namespace Simplify

variable {s : Scope} {rules : List Rule} {v v' t u : Tree}

/-- What is replaced in a firing is a part of the tree, and rewritten itself. -/
theorem FiresAt.mem_subtrees (h : FiresAt s rules v v' t u) :
    v ∈ t.subtrees ∧ Rewrites s rules v v' := by
  induction h with
  | head hrules _ _ hrun =>
      refine ⟨Tree.mem_subtrees_self v, .head ?_ hrun⟩
      rw [hrules]
      exact List.mem_append_right _ List.mem_cons_self
  | argument h before after _ ih =>
      exact ⟨Tree.subtrees_of_mem (List.mem_append_right before List.mem_cons_self) ih.1, ih.2⟩

/-- A part that stands for an integer is replaced by what stands for this integer. -/
theorem FiresAt.integer?_eq (hs : s.HasArithmetic) (hnone : ∀ n, s.value? n = none)
    (hrules : ∀ r ∈ rules, r ∈ Library.polynomialRules) (h : FiresAt s rules v v' t u)
    (hsmall : Evaluates Tree.StaysSmall rules v) {n : Int} (hn : v.integer? = some n) :
    v'.integer? = some n := by
  have hsettles : Evaluates (·.Settles .closedIntegers Interpretation.Refines) rules v :=
    fun w hw r hr found hfind c hc => Tree.settles_of_staysSmall (hsmall w hw r hr found hfind c hc)
  obtain ⟨b, hb, hrefines⟩ := interpret_of_rewrites hs hnone Interpretation.isFaithful_closedIntegers
    Interpretation.comparison_closedIntegers (fun r hr => Library.keeps_polynomialRules (hrules r hr))
    h.mem_subtrees.2 hsettles (Tree.integer?_eq_some.1 hn)
  rw [hrefines.eq_closed] at hb
  exact Tree.integer?_eq_some.2 hb

end Simplify

end MathExpr
