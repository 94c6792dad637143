import MathExpr.Proofs.Calculation
import MathExpr.Proofs.NormalForm

/-!
# Rewriting and what trees stand for

Rules that keep what trees stand for, up to a relation that the operations respect, keep
it through a whole derivation (`Simplify.interpret_of_derives`). A rule keeps it if its
result stands for what its pattern does, whatever its names are assigned, and if what
`eval` calculates is what the argument of `eval` stands for. The conditions of the
rule do not matter.
-/

namespace MathExpr

open MathExpr.Action (runFrom)

variable {α : Type} {I : Interpretation α} {R : α → α → Prop} {s : Scope} {found : Captures}

namespace Tree

/-! ### Parts that are evaluated -/

mutual

/-- A tree with the argument of each `eval` in place of the `eval`. -/
def withoutEval : Tree → Tree
  | .leaf v => .leaf v
  | .node (.call "eval") [t] => t
  | .node h args => .node h (withoutEvalOf args)

/-- The trees of a list with the argument of each `eval` in place of the `eval`. -/
def withoutEvalOf : List Tree → List Tree
  | [] => []
  | t :: ts => withoutEval t :: withoutEvalOf ts

end

mutual

/-- The arguments of the `eval` in a tree. -/
def evalArguments : Tree → List Tree
  | .leaf _ => []
  | .node (.call "eval") [t] => [t]
  | .node _ args => evalArgumentsOf args

/-- The arguments of the `eval` in the trees of a list. -/
def evalArgumentsOf : List Tree → List Tree
  | [] => []
  | t :: ts => evalArguments t ++ evalArgumentsOf ts

end

/-- The floating-point number that a tree comes to, if it comes to one, stands for what the tree
does, up to a relation. -/
def Settles (I : Interpretation α) (R : α → α → Prop) (t : Tree) : Prop :=
  ∀ x, t.float? = some x → ∀ a, t.interpret I = some a → ∃ b, I.number (.real x) = some b ∧ R b a

mutual

/-- In a tree of arithmetic there is nothing to evaluate. -/
theorem evalParts_of_interpret : (t : Tree) → ∀ a, t.interpret I = some a → t.evalParts s = pure t
  | .leaf v, a, ht => rfl
  | .node h args, a, ht => by
      obtain ⟨o, as, rfl, has, -⟩ := interpret_node_eq_some.1 ht
      show (do return Tree.node (.op o) (← evalPartsOf s args)) = _
      rw [evalPartsOf_of_interpretAll args as has]
      rfl

theorem evalPartsOf_of_interpretAll : (ts : List Tree) → ∀ as, interpretAll I ts = some as →
    evalPartsOf s ts = pure ts
  | [], as, has => rfl
  | t :: ts, as, has => by
      obtain ⟨a, as', ha, has', rfl⟩ := interpretAll_cons_eq_some.1 has
      rw [evalPartsOf, evalParts_of_interpret t a ha, evalPartsOf_of_interpretAll ts as' has']
      rfl

end

mutual

theorem evalArguments_of_interpret : (t : Tree) → ∀ a, t.interpret I = some a → t.evalArguments = []
  | .leaf v, a, ht => rfl
  | .node h args, a, ht => by
      obtain ⟨o, as, rfl, has, -⟩ := interpret_node_eq_some.1 ht
      exact evalArgumentsOf_of_interpretAll args as has

theorem evalArgumentsOf_of_interpretAll : (ts : List Tree) → ∀ as, interpretAll I ts = some as →
    evalArgumentsOf ts = []
  | [], as, has => rfl
  | t :: ts, as, has => by
      obtain ⟨a, as', ha, has', rfl⟩ := interpretAll_cons_eq_some.1 has
      rw [evalArgumentsOf, evalArguments_of_interpret t a ha, evalArgumentsOf_of_interpretAll ts as' has']
      rfl

end

/-- Where a tree settles, what evaluating it leads to stands for what the tree does. -/
theorem returns_eval (hs : s.HasArithmetic) (hnone : ∀ n, s.value? n = none) (hI : I.IsFaithful)
    {t : Tree} {a : α} (ht : t.interpret I = some a) (hsettles : t.Settles I R) :
    (do return Tree.leaf (← s.eval t) : Action Tree).Returns fun u =>
      ∃ b, u.interpret I = some b ∧ R b a := by
  refine Action.returns_bind (Evaluate.returns_arithmetic hs hnone hI t a ht) fun v hv => ?_
  obtain ⟨x, hx, rfl⟩ := hv
  exact Action.returns_pure (hsettles x hx a ht)

mutual

/-- With captures filled in and parts evaluated, a tree stands for what it stands for without
evaluation where its names stand for the captures. -/
theorem returns_evalParts (hs : s.HasArithmetic) (hnone : ∀ n, s.value? n = none)
    (hI : I.IsFaithful) (hR : I.Comparison R) : (q : Tree) → ∀ a,
      q.withoutEval.interpret (I.filled found) = some a →
      (∀ c ∈ (q.fill found).evalArguments, c.Settles I R) →
      ((q.fill found).evalParts s).Returns fun u => ∃ b, u.interpret I = some b ∧ R b a
  | .leaf v, a, hq, hsettles => by
      have hfill : ((Tree.leaf v).fill found).interpret I = some a := by
        rw [interpret_fill]
        exact hq
      rw [evalParts_of_interpret _ a hfill]
      exact Action.returns_pure ⟨a, hfill, hR.refl a⟩
  | .node (.op o) args, a, hq, hsettles => by
      obtain ⟨as, has, ha⟩ := Option.bind_eq_some_iff.1 hq
      have hargs := returns_evalPartsOf hs hnone hI hR args as has hsettles
      refine Action.returns_bind hargs fun us hus => ?_
      obtain ⟨bs, hbs, hrelated⟩ := hus
      obtain ⟨b, hb, hba⟩ := hR.operator? hrelated ha
      exact Action.returns_pure ⟨b, interpret_node_eq_some.2 ⟨o, bs, rfl, hbs, hb⟩, hba⟩
  | .node (.call name) args, a, hq, hsettles => by
      unfold withoutEval at hq
      split at hq
      · cases ‹Tree.node (.call name) args = _›
      · rename_i t heq
        cases heq
        refine returns_eval hs hnone hI ?_ (hsettles _ List.mem_cons_self)
        rw [interpret_fill]
        exact hq
      · rename_i heq
        cases heq
        cases hq
  | .node .list args, a, hq, hsettles => by cases hq

theorem returns_evalPartsOf (hs : s.HasArithmetic) (hnone : ∀ n, s.value? n = none)
    (hI : I.IsFaithful) (hR : I.Comparison R) : (qs : List Tree) → ∀ as,
      interpretAll (I.filled found) (withoutEvalOf qs) = some as →
      (∀ c ∈ evalArgumentsOf (fillAll found qs), c.Settles I R) →
      (evalPartsOf s (fillAll found qs)).Returns fun us =>
        ∃ bs, interpretAll I us = some bs ∧ List.Forall₂ R bs as
  | [], as, has, hsettles => by
      cases has
      exact Action.returns_pure ⟨[], rfl, .nil⟩
  | q :: qs, as, has, hsettles => by
      obtain ⟨a, as', ha, has', rfl⟩ := interpretAll_cons_eq_some.1 has
      have hq := returns_evalParts hs hnone hI hR q a ha
        fun c hc => hsettles c (List.mem_append_left _ hc)
      have hqs := returns_evalPartsOf hs hnone hI hR qs as' has'
        fun c hc => hsettles c (List.mem_append_right _ hc)
      refine Action.returns_bind hq fun u hu => Action.returns_bind hqs fun us hus => ?_
      obtain ⟨b, hb, hba⟩ := hu
      obtain ⟨bs, hbs, hrelated⟩ := hus
      refine Action.returns_pure ⟨b :: bs, ?_, .cons hba hrelated⟩
      exact interpretAll_cons_eq_some.2 ⟨b, bs, hb, hbs, rfl⟩

end

/-- Replacing one argument by another that stands for the same, up to a relation. -/
theorem exists_interpretAll_append (hR : I.Comparison R) (after : List Tree) {t u : Tree}
    (h : ∀ a, t.interpret I = some a → ∃ b, u.interpret I = some b ∧ R b a) :
    (before : List Tree) → ∀ as, interpretAll I (before ++ t :: after) = some as →
      ∃ bs, interpretAll I (before ++ u :: after) = some bs ∧ List.Forall₂ R bs as
  | [], as, has => by
      obtain ⟨a, as', ha, has', rfl⟩ := interpretAll_cons_eq_some.1 has
      obtain ⟨b, hb, hba⟩ := h a ha
      refine ⟨b :: as', interpretAll_cons_eq_some.2 ⟨b, as', hb, has', rfl⟩, .cons hba ?_⟩
      exact List.forall₂_same.2 fun a _ => hR.refl a
  | w :: before, as, has => by
      obtain ⟨a, as', ha, has', rfl⟩ := interpretAll_cons_eq_some.1 has
      obtain ⟨bs, hbs, hrelated⟩ := exists_interpretAll_append hR after h before as' has'
      exact ⟨a :: bs, interpretAll_cons_eq_some.2 ⟨a, bs, ha, hbs, rfl⟩, .cons (hR.refl a) hrelated⟩

end Tree

/-! ### Rules -/

namespace Rule

/-- Where a rule may match arithmetic, pattern and result are arithmetic, and the result stands for
what the pattern does, up to a relation. -/
def Keeps (I : Interpretation α) (R : α → α → Prop) (r : Rule) : Prop :=
  r.pattern.isForeign = true ∨
    (∃ p, r.pattern.interpret .polynomials = some p) ∧
      ∀ σ a, r.pattern.interpret (I.assign σ) = some a →
        ∃ b, r.result.withoutEval.interpret (I.assign σ) = some b ∧ R b a


/-- Where a rule matches, its result stands for what the tree does, up to a relation. -/
theorem interpret_result {r : Rule} (hr : r.Keeps I R) (hI : I.IsFaithful) {t : Tree} {a : α}
    (ht : t.interpret I = some a) (hfind : r.pattern.find t false = some found) :
    found.Mean I ∧ ∃ b, r.result.withoutEval.interpret (I.filled found) = some b ∧ R b a := by
  have hempty : Captures.Mean I .empty := fun k u hu => by cases hu
  change Pattern.matcher false r.pattern t .empty = some found at hfind
  rcases hr with hforeign | ⟨⟨p, hp⟩, hresult⟩
  · rw [Pattern.matcher_of_isForeign hI r.pattern t .empty a hforeign ht] at hfind
    cases hfind
  · obtain ⟨hmean, -, hpattern⟩ :=
      Pattern.interpret_of_matcher hI r.pattern t .empty found a p hempty ht hp hfind
    obtain ⟨σ, hσ⟩ := hmean.exists_assign hI
    have ha := hpattern found (.refl I found)
    rw [hσ] at ha ⊢
    exact ⟨hmean, hresult σ a ha⟩

/-- What a rule makes of a tree stands for what the tree does, up to a relation, if what it
evaluates settles. -/
theorem returns_transform {r : Rule} (hr : r.Keeps I R) (hs : s.HasArithmetic)
    (hnone : ∀ n, s.value? n = none) (hI : I.IsFaithful) (hR : I.Comparison R) {t : Tree} {a : α}
    (ht : t.interpret I = some a)
    (hsettles : ∀ found, r.pattern.find t false = some found →
      ∀ c ∈ (r.result.fill found).evalArguments, c.Settles I R) :
    (r.transform s t).Returns fun o => ∀ u, o = some u → ∃ b, u.interpret I = some b ∧ R b a := by
  unfold transform
  split
  · exact Action.returns_pure fun u hu => by cases hu
  · rename_i found hfind
    obtain ⟨-, b, hb, hba⟩ := interpret_result hr hI ht hfind
    refine Action.returns_bind (Action.returns_true _) fun met _ => ?_
    cases met with
    | false => exact Action.returns_pure fun u hu => by cases hu
    | true =>
        have hparts := Tree.returns_evalParts hs hnone hI hR r.result b hb (hsettles found hfind)
        refine Action.returns_bind (Action.returns_attempt hparts) fun o ho => ?_
        split
        · rename_i u
          refine Action.returns_pure fun u' hu' => ?_
          cases hu'
          obtain ⟨c, hc, hcb⟩ := ho u rfl
          exact ⟨c, hc, hR.trans c b a hcb hba⟩
        · exact Action.returns_pure fun u hu => by cases hu

end Rule

/-! ### Derivations -/

namespace Simplify

/-- Wherever a rule may fire in a tree, what it evaluates has a property. -/
def Evaluates (P : Tree → Prop) (rules : List Rule) (t : Tree) : Prop :=
  ∀ v ∈ t.subtrees, ∀ r ∈ rules, ∀ found, r.pattern.find v false = some found →
    ∀ c ∈ (r.result.fill found).evalArguments, P c

variable {rules : List Rule}

/-- Rewriting with rules that keep what trees stand for, in any part of a tree. -/
theorem interpret_of_rewrites (hs : s.HasArithmetic) (hnone : ∀ n, s.value? n = none)
    (hI : I.IsFaithful) (hR : I.Comparison R) (hrules : ∀ r ∈ rules, r.Keeps I R) {t u : Tree}
    (h : Rewrites s rules t u) (hsettles : Evaluates (·.Settles I R) rules t) {a : α}
    (ht : t.interpret I = some a) : ∃ b, u.interpret I = some b ∧ R b a := by
  induction h generalizing a with
  | @head r t u d d' hr hrun =>
      exact Rule.returns_transform (hrules r hr) hs hnone hI hR ht
        (hsettles t (Tree.mem_subtrees_self t) r hr) d _ d' hrun u rfl
  | @argument h before after t u hstep ih =>
      have hmem : t ∈ before ++ t :: after := List.mem_append_right before List.mem_cons_self
      obtain ⟨o, as, rfl, has, ha⟩ := Tree.interpret_node_eq_some.1 ht
      have hpart : ∀ m, t.interpret I = some m → ∃ b, u.interpret I = some b ∧ R b m :=
        fun m hm => ih (fun v hv => hsettles v (Tree.subtrees_of_mem hmem hv)) hm
      obtain ⟨bs, hbs, hrelated⟩ := Tree.exists_interpretAll_append hR after hpart before as has
      obtain ⟨b, hb, hba⟩ := hR.operator? hrelated ha
      exact ⟨b, Tree.interpret_node_eq_some.2 ⟨o, bs, rfl, hbs, hb⟩, hba⟩

/-- A derivation by rules that keep what trees stand for keeps it. -/
theorem interpret_of_derives (hs : s.HasArithmetic) (hnone : ∀ n, s.value? n = none)
    (hI : I.IsFaithful) (hR : I.Comparison R) (hrules : ∀ r ∈ rules, r.Keeps I R) {t u : Tree}
    (h : Derives s rules t u) {a : α} (ht : t.interpret I = some a)
    (hsettles : ∀ w b, Derives s rules t w → w.interpret I = some b → R b a →
      Evaluates (·.Settles I R) rules w) : ∃ b, u.interpret I = some b ∧ R b a := by
  induction h with
  | refl => exact ⟨a, ht, hR.refl a⟩
  | @tail v w hderives hstep ih =>
      obtain ⟨b, hb, hba⟩ := ih
      obtain ⟨c, hc, hcb⟩ := interpret_of_rewrites hs hnone hI hR hrules hstep
        (hsettles v b hderives hb hba) hb
      exact ⟨c, hc, hR.trans c b a hcb hba⟩

end Simplify

end MathExpr
