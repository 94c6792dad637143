import MathExpr.Proofs.Outcome
import MathExpr.Proofs.Trees
import MathExpr.Simplify
import Mathlib.Data.List.Forall2
import Mathlib.Logic.Relation

/-!
# Simplification rewrites

What simplification does to a tree, it does by rewriting: each step replaces one part of
the tree by what a rule turns this part into (`Simplify.Rewrites`), and the result is
derived from the tree by such steps (`Ruleset.derives_of_simplifyTracing`). More exactly,
a rule fires at a part only when no rule has fired at the parts of this part, and none of
the rules before it at the part itself (`Simplify.FiresAt`).

`Run.Gives` is partial correctness of actions with a log of firings: whatever the action
gives as its result has a property. It passes through sequences and the recursion of
`settleWith` follows the tree.
-/

namespace MathExpr

open MathExpr.Action (runFrom)

namespace Simplify

/-! ### Rewriting -/

/-- One part of a tree is replaced by what a rule turns it into. -/
inductive Rewrites (s : Scope) (rules : List Rule) : Tree → Tree → Prop where
  | head {r : Rule} {t u : Tree} {d d' : Draws} (hr : r ∈ rules)
      (h : runFrom (r.transform s t) d = (.ok (some u), d')) : Rewrites s rules t u
  | argument (h : Head) (before after : List Tree) {t u : Tree} (htu : Rewrites s rules t u) :
      Rewrites s rules (.node h (before ++ t :: after)) (.node h (before ++ u :: after))

/-- The second tree is reached from the first by rewriting. -/
abbrev Derives (s : Scope) (rules : List Rule) : Tree → Tree → Prop :=
  Relation.ReflTransGen (Rewrites s rules)

/-- The rules may all be passed over at a tree as a whole. -/
def Rests (s : Scope) (rules : List Rule) (t : Tree) : Prop :=
  ∀ r ∈ rules, ∃ d d', runFrom (r.transform s t) d = (.ok none, d')

/-- In a tree, the part `v` is replaced by what a rule turns it into, while all rules are passed over at
the parts of `v`, and those before the rule at `v` itself. -/
inductive FiresAt (s : Scope) (rules : List Rule) (v v' : Tree) : Tree → Tree → Prop where
  | head {r : Rule} {before after : List Rule} {d d' : Draws} (hrules : rules = before ++ r :: after)
      (hbefore : Rests s before v) (hparts : ∀ t ∈ v.args, ∀ u ∈ t.subtrees, Rests s rules u)
      (h : runFrom (r.transform s v) d = (.ok (some v'), d')) : FiresAt s rules v v' v v'
  | argument (h : Head) (before after : List Tree) {t u : Tree} (htu : FiresAt s rules v v' t u) :
      FiresAt s rules v v' (.node h (before ++ t :: after)) (.node h (before ++ u :: after))

/-- The second tree is reached from the first by firings. -/
abbrev Proceeds (s : Scope) (rules : List Rule) : Tree → Tree → Prop :=
  Relation.ReflTransGen fun t u => ∃ v v', FiresAt s rules v v' t u

variable {s : Scope} {rules : List Rule}

/-- A firing rewrites the tree. -/
theorem FiresAt.rewrites {v v' t u : Tree} (h : FiresAt s rules v v' t u) : Rewrites s rules t u := by
  induction h with
  | head hrules _ _ h =>
      refine .head ?_ h
      rw [hrules]
      exact List.mem_append_right _ List.mem_cons_self
  | argument h before after _ ih => exact ih.argument h before after

theorem Proceeds.derives {t u : Tree} (h : Proceeds s rules t u) : Derives s rules t u := by
  induction h with
  | refl => exact .refl
  | tail _ hstep ih =>
      obtain ⟨_, _, hfires⟩ := hstep
      exact ih.tail hfires.rewrites

/-- Rewriting goes on inside the arguments of a node. -/
theorem Derives.argument (h : Head) (before after : List Tree) {t u : Tree}
    (htu : Derives s rules t u) :
    Derives s rules (.node h (before ++ t :: after)) (.node h (before ++ u :: after)) := by
  induction htu with
  | refl => exact .refl
  | tail _ hstep ih => exact ih.tail (hstep.argument h before after)

/-- The arguments of a node may all be rewritten by firings. -/
theorem Proceeds.arguments (h : Head) (before : List Tree) {ts us : List Tree}
    (hts : List.Forall₂ (Proceeds s rules) ts us) :
    Proceeds s rules (.node h (before ++ ts)) (.node h (before ++ us)) := by
  induction hts generalizing before with
  | nil => exact .refl
  | @cons t u ts us htu hrest ih =>
      have hstep : Proceeds s rules (.node h (before ++ t :: ts)) (.node h (before ++ u :: ts)) := by
        induction htu with
        | refl => exact .refl
        | tail _ hstep ih =>
            obtain ⟨v, v', hfires⟩ := hstep
            exact ih.tail ⟨v, v', hfires.argument h before ts⟩
      have hrest := ih (before ++ [u])
      rw [List.append_assoc, List.append_assoc] at hrest
      exact hstep.trans hrest

/-! ### Partial correctness -/

namespace Run

variable {α β : Type}

/-- Whatever an action gives as its result has a property. -/
def Gives (x : Run α) (P : α → Prop) : Prop :=
  ∀ fired, (x.run fired).Returns fun r => P r.1

theorem gives_pure {a : α} {P : α → Prop} (h : P a) : Gives (pure a) P := by
  intro fired d r d' hrun
  cases hrun
  exact h

theorem gives_bind {x : Run α} {f : α → Run β} {P : α → Prop} {Q : β → Prop}
    (hx : Gives x P) (hf : ∀ a, P a → Gives (f a) Q) : Gives (x >>= f) Q := by
  intro fired d r d' hrun
  change runFrom (x.run fired >>= fun r => (f r.1).run r.2) d = _ at hrun
  rw [Action.runFrom_bind] at hrun
  rcases hx' : runFrom (x.run fired) d with ⟨r', d''⟩
  rw [hx'] at hrun
  cases r' with
  | error e => cases hrun
  | ok a => exact hf a.1 (hx fired d a d'' hx') a.2 d'' r d' hrun

/-- An action without firings. -/
theorem gives_lift {x : Action α} {P : α → Prop} (h : x.Returns P) :
    Gives (liftM x : Run α) P := by
  intro fired d r d' hrun
  change runFrom (x >>= fun a => pure (a, fired)) d = _ at hrun
  rw [Action.runFrom_bind] at hrun
  rcases hx : runFrom x d with ⟨r', d''⟩
  rw [hx] at hrun
  cases r' with
  | error e => cases hrun
  | ok a =>
      cases hrun
      exact h d a _ hx

theorem gives_fail (e : Error) (P : α → Prop) : Gives (liftM (Action.fail e : Action α)) P :=
  gives_lift fun _ _ _ hrun => by cases hrun

/-- An action of which nothing is asked. -/
theorem gives_true (x : Run α) : Gives x fun _ => True := fun _ _ _ _ _ => trivial

end Run

/-! ### What simplification gives -/

/-- The first rule that applies comes after rules that are passed over. -/
theorem returns_firstToApply (t : Tree) (rs : List Rule) :
    (firstToApply s t rs).Returns fun o => (o = none → Rests s rs t) ∧ ∀ r u, o = some (r, u) →
      ∃ before after d d', rs = before ++ r :: after ∧ Rests s before t ∧
        runFrom (r.transform s t) d = (.ok (some u), d') := by
  induction rs with
  | nil => exact Action.returns_pure ⟨fun _ _ hr => (by cases hr), fun _ _ ho => (by cases ho)⟩
  | cons r rs ih =>
      have htransform : (r.transform s t).Returns fun o =>
          ∃ d d', runFrom (r.transform s t) d = (.ok o, d') := fun d o d' hrun => ⟨d, d', hrun⟩
      refine Action.returns_bind htransform fun o ho => ?_
      cases o with
      | some u =>
          refine Action.returns_pure ⟨fun heq => (by cases heq), fun r' u' heq => ?_⟩
          cases heq
          obtain ⟨d, d', hrun⟩ := ho
          exact ⟨[], rs, d, d', rfl, fun r hr => (by cases hr), hrun⟩
      | none =>
          intro d o d' hrun
          obtain ⟨hnone, hsome⟩ := ih d o d' hrun
          refine ⟨fun heq => List.forall_mem_cons.2 ⟨ho, hnone heq⟩, fun r' u heq => ?_⟩
          obtain ⟨before, after, d, d', hrules, hbefore, hrun⟩ := hsome r' u heq
          exact ⟨r :: before, after, d, d', congrArg (r :: ·) hrules,
            List.forall_mem_cons.2 ⟨ho, hbefore⟩, hrun⟩

/-- A tree, in whose parts all rules are passed over, is rewritten by a firing, or the rules are passed over
at the tree, too. -/
theorem gives_fire (limit : Int) {t : Tree} (hparts : ∀ a ∈ t.args, ∀ u ∈ a.subtrees, Rests s rules u) :
    Run.Gives (fire s rules limit t) fun o =>
      (o = none → Rests s rules t) ∧ ∀ u, o = some u → FiresAt s rules t u t u := by
  unfold fire
  refine Run.gives_bind (Run.gives_lift (returns_firstToApply t rules)) fun o ho => ?_
  cases o with
  | none => exact Run.gives_pure ⟨fun _ => ho.1 rfl, fun u hu => by cases hu⟩
  | some p =>
      refine Run.gives_bind (Run.gives_true get) fun fired _ => ?_
      show Run.Gives (if _ then _ else _) _
      split
      · exact Run.gives_fail _ _
      · refine Run.gives_bind (Run.gives_true _) fun before _ => ?_
        refine Run.gives_bind (Run.gives_true _) fun after _ => ?_
        refine Run.gives_bind (Run.gives_true _) fun _ _ => ?_
        refine Run.gives_pure ⟨fun hu => (by cases hu), fun u hu => ?_⟩
        cases hu
        obtain ⟨_, _, _, _, hrules, hbefore, hrun⟩ := ho.2 p.1 p.2 rfl
        exact .head hrules hbefore hparts hrun

/-- A tree is rewritten by firings to one that is settled: the rules are passed over at all its parts. -/
def Settles (s : Scope) (rules : List Rule) (t u : Tree) : Prop :=
  Proceeds s rules t u ∧ ∀ v ∈ u.subtrees, Rests s rules v

variable {again : Tree → Run Tree} {limit : Int}

theorem gives_finish (hagain : ∀ t, Run.Gives (again t) (Settles s rules t)) {t : Tree}
    (hparts : ∀ a ∈ t.args, ∀ u ∈ a.subtrees, Rests s rules u) :
    Run.Gives (settleWith.finish (fire s rules limit) again t) (Settles s rules t) := by
  unfold settleWith.finish
  refine Run.gives_bind (gives_fire limit hparts) fun o ho => ?_
  cases o with
  | none =>
      refine Run.gives_pure ⟨.refl, fun v hv => ?_⟩
      cases t with
      | leaf w =>
          rw [List.mem_singleton.1 hv]
          exact ho.1 rfl
      | node h args =>
          rcases List.mem_cons.1 hv with rfl | hv
          · exact ho.1 rfl
          · obtain ⟨a, ha, hv⟩ := Tree.mem_subtreesOf.1 hv
            exact hparts a ha v hv
  | some u =>
      intro fired d r d' hrun
      obtain ⟨hproceeds, hrests⟩ := hagain u fired d r d' hrun
      exact ⟨.head ⟨t, u, ho.2 u rfl⟩ hproceeds, hrests⟩

mutual

/-- What is given for a tree is settled. -/
theorem gives_settleWith (hagain : ∀ t, Run.Gives (again t) (Settles s rules t)) :
    (t : Tree) → Run.Gives (settleWith (fire s rules limit) again t) (Settles s rules t)
  | .leaf v => by
      unfold settleWith
      exact gives_finish hagain fun a ha => by cases ha
  | .node h args => by
      unfold settleWith
      refine Run.gives_bind (gives_settleAllWith hagain args) fun us hus => ?_
      obtain ⟨hproceeds, hrests⟩ := hus
      intro fired d r d' hrun
      obtain ⟨hproceeds', hrests'⟩ :=
        gives_finish hagain (t := .node h us) hrests fired d r d' hrun
      exact ⟨(Proceeds.arguments h [] hproceeds).trans hproceeds', hrests'⟩

theorem gives_settleAllWith (hagain : ∀ t, Run.Gives (again t) (Settles s rules t)) :
    (ts : List Tree) → Run.Gives (settleAllWith (fire s rules limit) again ts) fun us =>
      List.Forall₂ (Proceeds s rules) ts us ∧ ∀ u ∈ us, ∀ v ∈ u.subtrees, Rests s rules v
  | [] => by
      unfold settleAllWith
      exact Run.gives_pure ⟨.nil, fun u hu => by cases hu⟩
  | t :: ts => by
      unfold settleAllWith
      refine Run.gives_bind (gives_settleWith hagain t) fun u hu => ?_
      refine Run.gives_bind (gives_settleAllWith hagain ts) fun us hus => ?_
      exact Run.gives_pure ⟨.cons hu.1 hus.1, List.forall_mem_cons.2 ⟨hu.2, hus.2⟩⟩

end

theorem gives_settle (limit : Int) : (fuel : Nat) → (t : Tree) →
    Run.Gives (settle s rules limit fuel t) (Settles s rules t)
  | 0, t => by
      unfold settle
      exact gives_settleWith (fun u => Run.gives_fail _ _) t
  | fuel + 1, t => by
      unfold settle
      exact gives_settleWith (gives_settle limit fuel) t

end Simplify

/-- What simplification gives is reached from the tree by firings. -/
theorem Ruleset.proceeds_of_simplifyTracing {R : Ruleset} {s : Scope} {limit : Int} {t u : Tree}
    {fired : List Firing} {d d' : Draws}
    (h : runFrom (R.simplifyTracing s limit t) d = (.ok (u, fired), d')) :
    Simplify.Proceeds s.withoutVariables R.rules t u := by
  unfold simplifyTracing at h
  rw [Action.runFrom_bind] at h
  rcases hrun : runFrom ((Simplify.settle s.withoutVariables R.rules limit limit.toNat t).run []) d
    with ⟨r, d''⟩
  rw [hrun] at h
  cases r with
  | error e => cases h
  | ok a =>
      cases h
      exact (Simplify.gives_settle limit limit.toNat t [] d a _ hrun).1

/-- What simplification gives is derived from the tree by rewriting. -/
theorem Ruleset.derives_of_simplifyTracing {R : Ruleset} {s : Scope} {limit : Int} {t u : Tree}
    {fired : List Firing} {d d' : Draws}
    (h : runFrom (R.simplifyTracing s limit t) d = (.ok (u, fired), d')) :
    Simplify.Derives s.withoutVariables R.rules t u :=
  (proceeds_of_simplifyTracing h).derives

end MathExpr
