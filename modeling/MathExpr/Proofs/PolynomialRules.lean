import MathExpr.Proofs.FunctionNames
import MathExpr.Proofs.Magnitudes
import MathExpr.Proofs.RuleTrees

/-!
# Rules that keep the meaning

Simplifying a polynomial expression with the built-in rules for sums and products keeps
its meaning, whatever integers its names are assigned
(`Ruleset.meaning_simplifyTracing`).

Whether a rule keeps the meaning of all trees that it applies to is decided by
calculation: its pattern and its result are made polynomials in the names that it
captures under, and these have to be the same (`Rule.preserves`). What `eval` calculates
has to be exact (`Simplify.StaysExact`), which is the only thing that is asked of the
floating-point numbers. It is exact for all trees with a magnitude of at most `2 ^ 53`
(`Simplify.staysExact_of_magnitude`), because the rules do not make a tree larger.
-/

namespace MathExpr

open MathExpr.Action (runFrom)

/-! ### The built-in rules -/

namespace Rule

/-- Whether a rule keeps the meaning of what it applies to: its pattern matches no arithmetic, or
pattern and result are the same polynomial. -/
def preserves (r : Rule) : Bool :=
  r.pattern.isForeign ||
    match r.pattern.interpret .polynomials, r.result.withoutEval.interpret .polynomials with
    | some p, some q => Poly.same p q
    | _, _ => false

theorem isForeign_or_of_preserves {r : Rule} (hr : r.preserves = true) :
    r.pattern.isForeign = true ∨ ∃ p, r.pattern.interpret .polynomials = some p := by
  unfold preserves at hr
  rcases Bool.or_eq_true_iff.1 hr with hforeign | hr
  · exact .inl hforeign
  · split at hr
    · rename_i p _ hp _
      exact .inr ⟨p, hp⟩
    · cases hr

theorem keeps_of_preserves {r : Rule} (hr : r.preserves = true) (ρ : String → Int) :
    r.Keeps (.integers ρ) (· = ·) := by
  unfold preserves at hr
  rcases Bool.or_eq_true_iff.1 hr with hforeign | hr
  · exact .inl hforeign
  split at hr
  · rename_i p q hp hq
    refine .inr ⟨⟨p, hp⟩, fun σ n hn => ⟨n, ?_, rfl⟩⟩
    change r.pattern.interpret (.integers σ) = some n at hn
    show r.result.withoutEval.interpret (.integers σ) = some n
    rw [Pattern.interpret_map (Interpretation.leads_polynomials σ), hp] at hn
    rw [Tree.interpret_map (Interpretation.leads_polynomials σ), hq, ← hn]
    exact congrArg some (Poly.eval_eq_of_same σ hr).symm
  · cases hr

end Rule

namespace Library

/-- The rulesets for sums and products. -/
def polynomialSets : List String :=
  ["basic", "unitFactor", "zeroFactor", "zeroTerm", "noLeadingMinus", "collectNumbers",
    "constantsFirst"]

/-- The rules of the rulesets for sums and products. -/
def polynomialRules : List Rule :=
  polynomialSets.flatMap fun name => ((rulesets.find? name).map Ruleset.rules).getD []

/-- There are 48 rules for sums and products. All of them keep the meaning, and none makes a tree
larger. -/
theorem preserves_polynomialRules : polynomialRules.length = 48 ∧
    (∀ r ∈ polynomialRules, r.preserves = true) ∧ ∀ r ∈ polynomialRules, r.shrinks = true := by
  have hrules : polynomialRules.length = 48 ∧
      polynomialRules.all (fun r => r.preserves && r.shrinks) = true := by
    unfold polynomialRules
    rw [rulesets_eq]
    decide +kernel
  exact ⟨hrules.1, fun r hr => (Bool.and_eq_true_iff.1 (List.all_eq_true.1 hrules.2 r hr)).1,
    fun r hr => (Bool.and_eq_true_iff.1 (List.all_eq_true.1 hrules.2 r hr)).2⟩

end Library

/-! ### Simplification -/

namespace Simplify

/-- Wherever a rule may fire on the way from a tree, what it evaluates is exact. -/
def StaysExact (s : Scope) (rules : List Rule) (t : Tree) : Prop :=
  ∀ u, Derives s rules t u → Evaluates Tree.ComputesExactly rules u

variable {s : Scope} {rules : List Rule}

/-- What may be evaluated in a tree is not larger than the tree. -/
theorem evaluates_of_magnitude (hrules : ∀ r ∈ rules, r ∈ Library.polynomialRules) {t : Tree}
    {m : ℕ+} (ht : t.magnitude? = some m) :
    Evaluates (fun c => ∃ k, c.magnitude? = some k ∧ k ≤ m) rules t := by
  intro v hv r hr found hfind c hc
  have hmem := hrules r hr
  have hkeeps := Rule.keeps_of_shrinks (Library.preserves_polynomialRules.2.2 r hmem)
    (Rule.isForeign_or_of_preserves (Library.preserves_polynomialRules.2.1 r hmem))
  obtain ⟨k, hk, hkm⟩ := Tree.magnitude?_of_mem_subtrees t hv m ht
  obtain ⟨-, j, hj, hjk⟩ :=
    Rule.interpret_result hkeeps Interpretation.isFaithful_magnitudes hk hfind
  obtain ⟨i, hi, hij⟩ := Tree.magnitude?_of_mem_evalArguments r.result hc j hj
  exact ⟨i, hi, hij.trans (hjk.trans hkm)⟩

/-- Where the magnitude of a tree is not larger than `2 ^ 53`, everything that is evaluated on the
way from it is exact. -/
theorem staysExact_of_magnitude (hs : s.HasArithmetic) (hnone : ∀ n, s.value? n = none)
    (hrules : ∀ r ∈ rules, r ∈ Library.polynomialRules) {t : Tree} {m : ℕ+}
    (ht : t.magnitude? = some m) (hmax : (m : ℕ) ≤ 2 ^ 53) : StaysExact s rules t := by
  intro u hu v hv r hr found hfind c hc
  have hle : ∀ k : ℕ+, k ≤ m → (k : ℕ) ≤ 2 ^ 53 := fun k hk =>
    (PNat.coe_le_coe _ _ |>.2 hk).trans hmax
  have hkeeps : ∀ r ∈ rules, r.Keeps .magnitudes (· ≤ ·) := fun r hr =>
    Rule.keeps_of_shrinks (Library.preserves_polynomialRules.2.2 r (hrules r hr))
      (Rule.isForeign_or_of_preserves (Library.preserves_polynomialRules.2.1 r (hrules r hr)))
  have hsettles : ∀ w k, Derives s rules t w → w.magnitude? = some k → k ≤ m →
      Evaluates (·.Settles .magnitudes (· ≤ ·)) rules w := by
    intro w k _ hk hkm v' hv' r' hr' found' hfind' c' hc'
    obtain ⟨j, hj, hjk⟩ := evaluates_of_magnitude hrules hk v' hv' r' hr' found' hfind' c' hc'
    exact Tree.settles_of_magnitude hj (hle j (hjk.trans hkm))
  obtain ⟨k, hk, hkm⟩ := interpret_of_derives hs hnone Interpretation.isFaithful_magnitudes
    Interpretation.comparison_magnitudes hkeeps hu ht hsettles
  obtain ⟨j, hj, hjk⟩ := evaluates_of_magnitude hrules hk v hv r hr found hfind c hc
  exact Tree.computesExactly_of_magnitude hj (hle j (hjk.trans hkm))

end Simplify

namespace Ruleset

open Simplify (usualLimit)

/-- **Simplification keeps the meaning of polynomial expressions.** Whatever built-in rules for
sums and products are used, in whatever order, what simplification makes of a tree of integers,
names, sums, differences, products and signs means the same integer as the tree, whatever
integers the names are assigned. -/
theorem meaning_simplifyTracing {R : Ruleset} {s : Scope} {limit : Int} {t u : Tree}
    {fired : List Firing} {d d' : Draws} (hs : s.withoutVariables.HasArithmetic)
    (hR : ∀ r ∈ R.rules, r ∈ Library.polynomialRules)
    (hexact : Simplify.StaysExact s.withoutVariables R.rules t)
    (hrun : runFrom (R.simplifyTracing s limit t) d = (.ok (u, fired), d'))
    (ρ : String → Int) {n : Int} (ht : t.meaning ρ = some n) : u.meaning ρ = some n := by
  have hkeeps : ∀ r ∈ R.rules, r.Keeps (.integers ρ) (· = ·) := fun r hr =>
    Rule.keeps_of_preserves (Library.preserves_polynomialRules.2.1 r (hR r hr)) ρ
  have hcomparison : (Interpretation.integers ρ).Comparison (· = ·) :=
    ⟨fun _ => rfl, fun _ _ _ => Eq.trans, fun _ _ _ _ => congrArg₂ _, fun _ _ _ _ => congrArg₂ _,
      fun _ _ _ _ => congrArg₂ _, fun _ _ => congrArg _⟩
  have hsettles : ∀ w b, Simplify.Derives s.withoutVariables R.rules t w → w.meaning ρ = some b → b = n →
      Simplify.Evaluates (·.Settles (.integers ρ) (· = ·)) R.rules w := by
    intro w b hw _ _ v hv r hr found hfind c hc x hx a ha
    exact ⟨a, (hexact w hw v hv r hr found hfind c hc x hx ρ).trans ha, rfl⟩
  obtain ⟨_, hu, rfl⟩ := Simplify.interpret_of_derives hs (fun _ => rfl)
    (Interpretation.isFaithful_integers ρ) hcomparison hkeeps
    (derives_of_simplifyTracing hrun) ht hsettles
  exact hu

/-- The built-in ruleset that moves signs to the back. -/
def noLeadingMinus : Ruleset := (Library.rulesets.find? "noLeadingMinus").getD ⟨[], .empty⟩

/-- `-x + (-y + z)` -/
def leadingSigns : Tree :=
  .binary "+" (.node (.op ⟨"-u", .before⟩) [.leaf (.name "x" [])])
    (.binary "+" (.node (.op ⟨"-u", .before⟩) [.leaf (.name "y" [])]) (.leaf (.name "z" [])))

/-- Whether an action gives a tree after some firing. -/
def fires (x : Action (Tree × List Firing)) (d : Draws) : Bool :=
  match runFrom x d with
  | (.ok (_, _ :: _), _) => true
  | _ => false

theorem exists_of_fires {x : Action (Tree × List Firing)} {d : Draws} (h : fires x d = true) :
    ∃ u p fired d', runFrom x d = (.ok (u, p :: fired), d') := by
  unfold fires at h
  split at h
  · rename_i u p fired d' hrun
    exact ⟨u, p, fired, d', hrun⟩
  · cases h

theorem fires_leadingSigns :
    fires (noLeadingMinus.simplifyTracing Library.scope usualLimit leadingSigns) .default = true := by
  unfold simplifyTracing Scope.withoutVariables noLeadingMinus
  rw [Library.child_scope, Library.scope_eq, Library.rulesets_eq]
  decide +kernel

theorem mem_polynomialRules_of_noLeadingMinus {r : Rule} (hr : r ∈ noLeadingMinus.rules) :
    r ∈ Library.polynomialRules := by
  refine List.mem_flatMap.2 ⟨"noLeadingMinus", by decide, ?_⟩
  show r ∈ ((Library.rulesets.find? "noLeadingMinus").map Ruleset.rules).getD []
  change r ∈ ((Library.rulesets.find? "noLeadingMinus").getD ⟨[], .empty⟩).rules at hr
  generalize Library.rulesets.find? "noLeadingMinus" = found at hr ⊢
  cases found <;> exact hr

theorem meaning_simplifyTracing_leadingSigns :
    ∃ u p fired d', runFrom (noLeadingMinus.simplifyTracing Library.scope usualLimit leadingSigns)
        .default = (.ok (u, p :: fired), d') ∧
      ∀ ρ, u.meaning ρ = some (-ρ "x" + (-ρ "y" + ρ "z")) := by
  obtain ⟨u, p, fired, d', hrun⟩ := exists_of_fires fires_leadingSigns
  have hmagnitude : leadingSigns.magnitude? = some 3 := by decide +kernel
  have hexact : Simplify.StaysExact Library.scope.withoutVariables noLeadingMinus.rules leadingSigns :=
    Simplify.staysExact_of_magnitude Library.hasArithmetic_scope (fun _ => rfl)
      (fun _ => mem_polynomialRules_of_noLeadingMinus) hmagnitude (by decide)
  refine ⟨u, p, fired, d', hrun, fun ρ => ?_⟩
  exact meaning_simplifyTracing Library.hasArithmetic_scope (fun _ => mem_polynomialRules_of_noLeadingMinus)
    hexact hrun ρ rfl

end Ruleset

end MathExpr
