import MathExpr.Proofs.Matching
import MathExpr.Proofs.Regrouping

/-!
# Calculating parts of a tree

Where a rule only calculates the tree that it applies to, what it has captured, or the
opposite of one of these (`Rule.calculatesParts`), it meets no larger integers than there
are in the tree (`Simplify.calculateSmall_of_calculatesParts`): what a pattern captures is
a part of the tree.
-/

namespace MathExpr

/-! ### Captured parts -/

/-- Whatever has been captured is a part of a tree. -/
def Captures.ArePartsOf (t : Tree) (found : Captures) : Prop :=
  ∀ key u, found.find? key = some u → u ∈ t.subtrees

theorem Captures.ArePartsOf.bind {t u : Tree} {key : String} {found found' : Captures}
    (hfound : found.ArePartsOf t) (hu : u ∈ t.subtrees) (h : found.bind key u = some found') :
    found'.ArePartsOf t := by
  intro k w hw
  rw [Captures.eq_insert_of_bind h, Table.find?_insert] at hw
  split at hw
  · cases hw
    exact hu
  · exact hfound k w hw

namespace Pattern

variable {t : Tree}

mutual

/-- What a pattern of arithmetic captures in a part of a tree is a part of the tree. -/
theorem arePartsOf_of_matcher : (p : Pattern) → ∀ v found found' b, p.interpret .polynomials = some b →
    v ∈ t.subtrees → found.ArePartsOf t → matcher false p v found = some found' → found'.ArePartsOf t
  | .capture p key, v, found, found', b, hp, hv, hfound, h => by
      cases p with
      | anything => exact hfound.bind hv h
      | _ => cases hp
  | .literal w, v, found, found', b, hp, hv, hfound, h => by
      cases v with
      | node k ts => cases h
      | leaf u =>
          rw [matcher] at h
          split_ifs at h
          cases h
          exact hfound
  | .node (.op o) ps, v, found, found', b, hp, hv, hfound, h => by
      cases v with
      | leaf w => cases h
      | node k ts =>
          obtain ⟨bs, hbs, -⟩ := Option.bind_eq_some_iff.1 hp
          rw [matcher_node] at h
          split_ifs at h
          refine arePartsOf_of_matchers ps ts found found' bs hbs (fun u hu => ?_) hfound h
          exact Tree.subtrees_trans hv (Tree.subtrees_of_mem hu (Tree.mem_subtrees_self u))
  | .anything, v, found, found', b, hp, hv, hfound, h => by cases hp
  | .anyMore, v, found, found', b, hp, hv, hfound, h => by cases hp
  | .ofKind _, v, found, found', b, hp, hv, hfound, h => by cases hp
  | .anyOf _, v, found, found', b, hp, hv, hfound, h => by cases hp
  | .allOf _, v, found, found', b, hp, hv, hfound, h => by cases hp
  | .excluding _, v, found, found', b, hp, hv, hfound, h => by cases hp
  | .commuting _, v, found, found', b, hp, hv, hfound, h => by cases hp
  | .node (.call _) _, v, found, found', b, hp, hv, hfound, h => by cases hp
  | .node .list _, v, found, found', b, hp, hv, hfound, h => by cases hp

theorem arePartsOf_of_matchers : (ps : List Pattern) → ∀ vs found found' bs,
    interpretAll .polynomials ps = some bs → (∀ v ∈ vs, v ∈ t.subtrees) → found.ArePartsOf t →
      pairwise (matchers false ps) vs found = some found' → found'.ArePartsOf t
  | [], [], found, found', bs, hps, hvs, hfound, h => by
      cases h
      exact hfound
  | [], v :: vs, found, found', bs, hps, hvs, hfound, h => by cases h
  | p :: ps, [], found, found', bs, hps, hvs, hfound, h => by cases h
  | p :: ps, v :: vs, found, found', bs, hps, hvs, hfound, h => by
      obtain ⟨b, bs', hb, hbs, rfl⟩ := interpretAll_cons_eq_some.1 hps
      obtain ⟨found₁, hfirst, hrest⟩ := Option.bind_eq_some_iff.1 h
      have hfound₁ := arePartsOf_of_matcher p v found found₁ b hb (hvs v List.mem_cons_self) hfound hfirst
      exact arePartsOf_of_matchers ps vs found₁ found' bs' hbs
        (fun u hu => hvs u (List.mem_cons_of_mem v hu)) hfound₁ hrest

end

end Pattern

/-! ### Filling in -/

namespace Tree

variable {found : Captures} {w : Tree}

theorem mem_fillAll {ts : List Tree} : w ∈ fillAll found ts ↔ ∃ t ∈ ts, w = t.fill found := by
  induction ts with
  | nil => simp [fillAll]
  | cons t ts ih => simp [fillAll, ih]

/-- The parts of a tree with captures filled in are its own parts with captures filled in, and parts of
what is captured. -/
theorem mem_subtrees_fill (t : Tree) : w ∈ (t.fill found).subtrees →
    (∃ u ∈ t.subtrees, w = u.fill found) ∨ ∃ key u, found.find? key = some u ∧ w ∈ u.subtrees := by
  induction t using ind with
  | leaf v =>
      intro hw
      cases v with
      | name s hints =>
          rw [fill] at hw
          cases hfind : found.find? (Text.lower s) with
          | some u =>
              rw [hfind] at hw
              exact .inr ⟨_, u, hfind, hw⟩
          | none =>
              rw [hfind] at hw
              refine .inl ⟨_, mem_subtrees_self _, (List.mem_singleton.1 hw).trans ?_⟩
              rw [fill, hfind]
              rfl
      | _ => exact .inl ⟨_, mem_subtrees_self _, List.mem_singleton.1 hw⟩
  | node h args ih =>
      intro hw
      rcases List.mem_cons.1 hw with rfl | hw
      · exact .inl ⟨_, mem_subtrees_self _, rfl⟩
      · obtain ⟨u, hu, hw⟩ := mem_subtreesOf.1 hw
        obtain ⟨t, ht, rfl⟩ := mem_fillAll.1 hu
        rcases ih t ht hw with ⟨u, hu, rfl⟩ | hcaptured
        · exact .inl ⟨u, subtrees_of_mem ht hu, rfl⟩
        · exact .inr hcaptured

/-- What is evaluated in a node that is no `eval` is what is evaluated in its arguments. -/
theorem evalArguments_node {h : Head} {args : List Tree} (hne : ∀ t, h = .call "eval" → args ≠ [t]) :
    (Tree.node h args).evalArguments = evalArgumentsOf args := by
  unfold evalArguments
  split
  · rename_i heq
    cases heq
  · rename_i t heq
    cases heq
    exact absurd rfl (hne t rfl)
  · rename_i heq
    cases heq
    rfl

mutual

/-- What is evaluated in a tree with captures filled in is what is evaluated in the tree, with captures
filled in, and what is evaluated in the captures. -/
theorem mem_evalArguments_fill : (t : Tree) → w ∈ (t.fill found).evalArguments →
    (∃ u ∈ t.evalArguments, w = u.fill found) ∨
      ∃ key u, found.find? key = some u ∧ w ∈ u.evalArguments
  | .leaf v, hw => by
      cases v with
      | name s hints =>
          rw [fill] at hw
          cases hfind : found.find? (Text.lower s) with
          | some u =>
              rw [hfind] at hw
              exact .inr ⟨_, u, hfind, hw⟩
          | none =>
              rw [hfind] at hw
              cases hw
      | _ => cases hw
  | .node h args, hw => by
      by_cases heval : ∃ t, h = .call "eval" ∧ args = [t]
      · obtain ⟨t, rfl, rfl⟩ := heval
        exact .inl ⟨t, List.mem_cons_self, List.mem_singleton.1 hw⟩
      · have hne : ∀ u, h = .call "eval" → fillAll found args ≠ [u] := by
          intro u hh hargs
          match args, hargs with
          | [t], _ => exact heval ⟨t, hh, rfl⟩
        rw [fill, evalArguments_node hne] at hw
        rw [evalArguments_node fun t hh hargs => heval ⟨t, hh, hargs⟩]
        exact mem_evalArgumentsOf_fill args hw

theorem mem_evalArgumentsOf_fill : (ts : List Tree) → w ∈ evalArgumentsOf (fillAll found ts) →
    (∃ u ∈ evalArgumentsOf ts, w = u.fill found) ∨
      ∃ key u, found.find? key = some u ∧ w ∈ u.evalArguments
  | [], hw => by cases hw
  | t :: ts, hw => by
      rcases List.mem_append.1 hw with hw | hw
      · exact (mem_evalArguments_fill t hw).imp_left fun ⟨u, hu, heq⟩ =>
          ⟨u, List.mem_append_left _ hu, heq⟩
      · exact (mem_evalArgumentsOf_fill ts hw).imp_left fun ⟨u, hu, heq⟩ =>
          ⟨u, List.mem_append_right _ hu, heq⟩

end

/-- The parts of a tree that stands for an integer stand for integers. -/
theorem exists_integer?_of_mem_subtrees {n : Int} (t : Tree) (hn : t.integer? = some n)
    (hw : w ∈ t.subtrees) : ∃ k, w.integer? = some k := by
  induction t using ind generalizing n with
  | leaf v =>
      rw [List.mem_singleton.1 hw]
      exact ⟨n, hn⟩
  | node h args ih =>
      rcases List.mem_cons.1 hw with rfl | hw
      · exact ⟨n, hn⟩
      · obtain ⟨t, ht, hw⟩ := mem_subtreesOf.1 hw
        obtain ⟨_, ns, -, hns, -⟩ := integer?_node_eq_some.1 hn
        obtain ⟨k, hk⟩ := exists_forall₂_iff.1 ⟨ns, hns⟩ t ht
        exact ih t ht hk hw

end Tree

/-! ### Rules -/

/-- The integers of closed trees, without a mark for names. -/
theorem Interpretation.leads_closedIntegers (σ : String → Int × Bool) :
    Leads Prod.fst (closedIntegers.assign σ) (integers fun key => (σ key).1) where
  number n := by
    show n.int? = ((n.int?.bind fun a => (n.int?.map fun _ => true).map fun b => (a, b)) : Option _).map _
    cases n.int? <;> rfl
  name _ := rfl
  add _ _ := rfl
  sub _ _ := rfl
  mul _ _ := rfl
  neg _ := rfl

/-- A polynomial is one of some others, or the opposite of one. -/
def Poly.isSigned (q : Poly) (ps : List Poly) : Bool :=
  ps.any fun p => Poly.same q p || Poly.same q (p.scale (-1))

theorem Poly.natAbs_eval_of_isSigned {σ : String → Int} {q : Poly} {ps : List Poly} {m : Nat}
    (hq : q.isSigned ps = true) (hps : ∀ p ∈ ps, (Poly.eval σ p).natAbs ≤ m) :
    (Poly.eval σ q).natAbs ≤ m := by
  obtain ⟨p, hp, hsame⟩ := List.any_eq_true.1 hq
  rcases Bool.or_eq_true_iff.1 hsame with hsame | hsame
  · rw [Poly.eval_eq_of_same σ hsame]
    exact hps p hp
  · rw [Poly.eval_eq_of_same σ hsame, Poly.eval_scale, neg_one_mul, Int.natAbs_neg]
    exact hps p hp

namespace Rule

/-- Whether all that a rule calculates, with its parts, is what it applies to, what it has captured, or
the opposite of one of these. -/
def calculatesParts (r : Rule) : Bool :=
  match r.pattern.interpret .polynomials with
  | some p => r.result.evalArguments.all fun c => c.subtrees.all fun t =>
      ((t.interpret .polynomials).map (·.isSigned (p :: r.pattern.captureNames.map Poly.var))).getD false
  | none => r.pattern.isForeign

/-- What a rule calculates in a tree that stands for an integer meets no larger integers. -/
theorem staysSmall_of_calculatesParts {r : Rule} (hr : r.calculatesParts = true) {v : Tree} {n : Int}
    {found : Captures} (hsmall : v.StaysSmall) (hn : v.integer? = some n)
    (hfind : r.pattern.find v false = some found) :
    ∀ c ∈ (r.result.fill found).evalArguments, c.StaysSmall := by
  have hI := Interpretation.isFaithful_closedIntegers
  change Pattern.matcher false r.pattern v .empty = some found at hfind
  unfold calculatesParts at hr
  split at hr
  · rename_i p hp
    have hparts : found.ArePartsOf v :=
      Pattern.arePartsOf_of_matcher r.pattern v .empty found p hp (Tree.mem_subtrees_self v)
        (fun key u hu => by cases hu) hfind
    obtain ⟨hmean, -, hpattern⟩ := Pattern.interpret_of_matcher hI r.pattern v .empty found (n, true) p
      (fun key u hu => by cases hu) (Tree.integer?_eq_some.1 hn) hp hfind
    obtain ⟨σ, hσ⟩ := hmean.exists_assign hI
    -- The captures are parts of the tree, and all other names stand for zero.
    have hnames : ∀ key, (σ key).1.natAbs ≤ 2 ^ 53 := by
      intro key
      have hkey : (Interpretation.closedIntegers.filled found).name key = some (σ key) := by
        rw [hσ]
        rfl
      unfold Interpretation.filled at hkey
      dsimp only at hkey
      split at hkey
      · rename_i u hu
        obtain ⟨k, hk⟩ := Tree.exists_integer?_of_mem_subtrees v hn (hparts key u hu)
        rw [Tree.integer?_eq_some.1 hk] at hkey
        rw [← Option.some.inj hkey]
        exact hsmall u (hparts key u hu) k hk
      · rw [← Option.some.inj hkey]
        exact Nat.zero_le _
    have hbound : ∀ q ∈ p :: r.pattern.captureNames.map Poly.var,
        (Poly.eval (fun key => (σ key).1) q).natAbs ≤ 2 ^ 53 := by
      intro q hq
      rcases List.mem_cons.1 hq with rfl | hq
      · have hvalue := Pattern.interpret_map (Interpretation.leads_closedIntegers σ) r.pattern
        rw [← hσ, hpattern found (.refl _ found),
          Pattern.interpret_map (Interpretation.leads_polynomials _), hp] at hvalue
        rw [Option.some.inj hvalue]
        exact hsmall v (Tree.mem_subtrees_self v) n hn
      · obtain ⟨key, -, rfl⟩ := List.mem_map.1 hq
        rw [Poly.eval_var]
        exact hnames key
    intro c hc w hw k hk
    rcases Tree.mem_evalArguments_fill r.result hc with ⟨e, he, rfl⟩ | ⟨key, u, hu, hcu⟩
    · rcases Tree.mem_subtrees_fill e hw with ⟨t, ht, rfl⟩ | ⟨key, u, hu, hwu⟩
      · have hcheck := List.all_eq_true.1 (List.all_eq_true.1 hr e he) t ht
        cases hq : t.interpret .polynomials with
        | none =>
            rw [hq] at hcheck
            cases hcheck
        | some q =>
            rw [hq] at hcheck
            have hvalue := Tree.interpret_map (Interpretation.leads_closedIntegers σ) t
            rw [← hσ, ← Tree.interpret_fill, Tree.integer?_eq_some.1 hk,
              Tree.interpret_map (Interpretation.leads_polynomials _), hq] at hvalue
            have hkq : k = _ := Option.some.inj hvalue.symm
            rw [hkq]
            exact Poly.natAbs_eval_of_isSigned hcheck hbound
      · exact hsmall w (Tree.subtrees_trans (hparts key u hu) hwu) k hk
    · obtain ⟨j, hj⟩ := Tree.exists_integer?_of_mem_subtrees v hn (hparts key u hu)
      rw [Tree.evalArguments_of_interpret u _ (Tree.integer?_eq_some.1 hj)] at hcu
      cases hcu
  · rw [Pattern.matcher_of_isForeign hI r.pattern v .empty _ hr (Tree.integer?_eq_some.1 hn)] at hfind
    cases hfind

end Rule

namespace Simplify

theorem calculateSmall_of_calculatesParts {rules : List Rule}
    (hrules : ∀ r ∈ rules, r.calculatesParts = true) : CalculateSmall rules := by
  intro v hsmall n hn w hw r hr found hfind
  obtain ⟨k, hk⟩ := Tree.exists_integer?_of_mem_subtrees v hn hw
  exact Rule.staysSmall_of_calculatesParts (hrules r hr)
    (fun u hu => hsmall u (Tree.subtrees_trans hw hu)) hk hfind

end Simplify

end MathExpr
