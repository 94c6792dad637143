import MathExpr.Proofs.Hygiene
import MathExpr.Proofs.NormalForm

/-!
# Conditions that cannot be evaluated

Applying a rule never fails with an error, whatever its conditions and calculated parts do: a condition that
fails with one is not met. But a breakdown of an operation is not held up (`Rule.ends_transform`). So
simplification fails with the error of too many firings only, or breaks down because a rule does at a part of
a tree on the way, or because such a part cannot be written as source text
(`Simplify.outcome_apply_and_simplifyTracing`).

A condition may well break down: that `y` be negative does so where `y` is `repeat(1,infinity)`
(`Simplify.breaksDown_subtractNegative`).

`Action.Ends` says what an action gives as its result and what it fails with. It passes through sequences, and
from there on the proofs follow the actions.
-/

namespace MathExpr

open MathExpr.Action (runFrom)

/-! ### How actions end -/

namespace Action

variable {α β : Type} {P P' : α → Prop} {Q Q' : Failure → Prop}

/-- What an action gives as its result has one property, and what it fails with another. -/
def Ends (x : Action α) (P : α → Prop) (Q : Failure → Prop) : Prop :=
  ∀ d, match (runFrom x d).1 with
    | .ok a => P a
    | .error e => Q e

theorem ends_pure {a : α} (h : P a) : (pure a : Action α).Ends P Q := fun _ => h

/-- What an action gives it gives, and what it fails with it fails with. -/
theorem ends_self (x : Action α) :
    x.Ends (fun a => ∃ d d', runFrom x d = (.ok a, d')) fun e => ∃ d d', runFrom x d = (.error e, d') := by
  intro d
  rcases hrun : runFrom x d with ⟨r, d'⟩
  cases r with
  | ok a => exact ⟨d, d', hrun⟩
  | error e => exact ⟨d, d', hrun⟩

theorem Ends.imp {x : Action α} (h : x.Ends P Q) (hP : ∀ a, P a → P' a) (hQ : ∀ e, Q e → Q' e) :
    x.Ends P' Q' := by
  intro d
  have hd := h d
  generalize runFrom x d = o at hd ⊢
  obtain ⟨r, d'⟩ := o
  cases r with
  | ok a => exact hP a hd
  | error e => exact hQ e hd

theorem ends_bind {x : Action α} {f : α → Action β} {P' : β → Prop} (hx : x.Ends P Q)
    (hf : ∀ a, P a → (f a).Ends P' Q) : (x >>= f).Ends P' Q := by
  intro d
  have hd := hx d
  rw [runFrom_bind]
  generalize runFrom x d = o at hd ⊢
  obtain ⟨r, d'⟩ := o
  cases r with
  | ok a => exact hf a hd d'
  | error e => exact hd

/-- Of what an action fails with, an attempt leaves the breakdowns. -/
theorem ends_attempt {x : Action α} (hx : x.Ends P fun e => ∀ f, e = .fault f → Q e) :
    (attempt x).Ends (fun o => ∀ a, o = .ok a → P a) Q := by
  intro d
  have hd := hx d
  rw [runFrom_attempt]
  generalize runFrom x d = o at hd ⊢
  obtain ⟨r, d'⟩ := o
  cases r with
  | ok a =>
      rintro b ⟨⟩
      exact hd
  | error e =>
      cases e with
      | error e => exact nofun
      | fault f => exact hd f rfl

end Action

/-! ### Applying a rule -/

namespace Tree

variable (s : Scope)

mutual

/-- Where calculating the parts of a tree fails, one of them fails. -/
theorem ends_evalParts : (t : Tree) → (t.evalParts s).Ends (fun _ => True) fun e =>
    ∃ u ∈ t.evalArguments, ∃ d d', runFrom (s.eval u) d = (.error e, d')
  | .leaf v => Action.ends_pure trivial
  | .node h args => by
      -- the argument of `eval` is evaluated as a whole, also where it has calculated parts itself
      by_cases heval : ∃ t, h = .call "eval" ∧ args = [t]
      · obtain ⟨t, rfl, rfl⟩ := heval
        change (s.eval t >>= fun v => pure (Tree.leaf v)).Ends _ _
        refine Action.ends_bind ((Action.ends_self (s.eval t)).imp (fun _ _ => trivial) fun e he => ?_)
          fun _ _ => Action.ends_pure trivial
        exact ⟨t, List.mem_cons_self, he⟩
      · have hne : ∀ t, h = .call "eval" → args ≠ [t] := fun t hh hargs => heval ⟨t, hh, hargs⟩
        rw [evalParts_node hne, evalArguments_node hne]
        exact Action.ends_bind (ends_evalPartsOf args) fun _ _ => Action.ends_pure trivial

theorem ends_evalPartsOf : (ts : List Tree) → (evalPartsOf s ts).Ends (fun _ => True) fun e =>
    ∃ u ∈ evalArgumentsOf ts, ∃ d d', runFrom (s.eval u) d = (.error e, d')
  | [] => Action.ends_pure trivial
  | t :: ts => by
      rw [evalPartsOf, evalArgumentsOf]
      refine Action.ends_bind ((ends_evalParts t).imp (fun _ h => h) ?_) fun _ _ =>
        Action.ends_bind ((ends_evalPartsOf ts).imp (fun _ h => h) ?_) fun _ _ => Action.ends_pure trivial
      · rintro e ⟨u, hu, hfails⟩
        exact ⟨u, List.mem_append_left _ hu, hfails⟩
      · rintro e ⟨u, hu, hfails⟩
        exact ⟨u, List.mem_append_right _ hu, hfails⟩

end

end Tree

namespace Rule

variable {s : Scope} {r : Rule} {t : Tree} {found : Captures}

/-- A condition is there, and is true of what has been captured. -/
def IsMet (s : Scope) (found : Captures) (c : Option Tree) : Prop :=
  ∃ condition d d', c = some condition ∧
    runFrom (s.eval (condition.fill found)) d = (.ok (.boolean true), d')

/-- What a rule may turn a tree into: the pattern matches, all conditions are met, and the parts of the result
are calculated. -/
def Yields (s : Scope) (r : Rule) (t u : Tree) : Prop :=
  ∃ found, r.pattern.find t false = some found ∧ (∀ c ∈ r.conditions, IsMet s found c) ∧
    ∃ d d', runFrom ((r.result.fill found).evalParts s) d = (.ok u, d')

/-- The pattern of a rule matches a tree, and then a condition is empty, or it breaks down, or a calculated
part of the result does. -/
inductive BreaksDown (s : Scope) (r : Rule) (t : Tree) : Fault → Prop
  | emptyCondition {found : Captures} (hfind : r.pattern.find t false = some found)
      (hc : none ∈ r.conditions) : BreaksDown s r t .missingPart
  | condition {found : Captures} {condition : Tree} {d d' : Draws} {f : Fault}
      (hfind : r.pattern.find t false = some found) (hc : some condition ∈ r.conditions)
      (heval : runFrom (s.eval (condition.fill found)) d = (.error (.fault f), d')) :
      BreaksDown s r t f
  | result {found : Captures} {u : Tree} {d d' : Draws} {f : Fault}
      (hfind : r.pattern.find t false = some found) (hu : u ∈ (r.result.fill found).evalArguments)
      (heval : runFrom (s.eval u) d = (.error (.fault f), d')) : BreaksDown s r t f

/-- What stops a rule: its breakdown. -/
def StoppedBy (s : Scope) (r : Rule) (t : Tree) (e : Failure) : Prop :=
  ∃ f, e = .fault f ∧ r.BreaksDown s t f

/-- That conditions are met is found out by evaluating them, each of which may break down. -/
theorem ends_areMet (hfind : r.pattern.find t false = some found) :
    (conditions : List (Option Tree)) → conditions ⊆ r.conditions →
      (areMet s found conditions).Ends (fun met => met = true → ∀ c ∈ conditions, IsMet s found c)
        (r.StoppedBy s t)
  | [], _ => Action.ends_pure fun _ c hc => by cases hc
  | none :: _, hsub => fun _ => ⟨_, rfl, .emptyCondition hfind (hsub List.mem_cons_self)⟩
  | some condition :: rest, hsub => by
      have hstopped : ∀ e, (∃ d d', runFrom (s.eval (condition.fill found)) d = (.error e, d')) →
          ∀ f, e = .fault f → r.StoppedBy s t e := by
        rintro _ ⟨d, d', hrun⟩ f rfl
        exact ⟨f, rfl, .condition hfind (hsub List.mem_cons_self) hrun⟩
      have hcondition := (Action.ends_self (s.eval (condition.fill found))).imp (fun _ h => h) hstopped
      -- an error is caught here, and the condition is not met; a breakdown goes through
      refine Action.ends_bind (Action.ends_attempt hcondition) fun o ho => ?_
      split
      · obtain ⟨d, d', hrun⟩ := ho _ rfl
        have hrest := ends_areMet hfind rest fun c hc => hsub (List.mem_cons_of_mem _ hc)
        refine hrest.imp (fun met hall hmet => ?_) fun _ h => h
        exact List.forall_mem_cons.2 ⟨⟨condition, d, d', rfl, hrun⟩, hall hmet⟩
      · exact Action.ends_pure fun hfalse => by cases hfalse

/-- Applying a rule gives a tree that the rule yields, or nothing, or breaks down because the rule does. -/
theorem ends_transform (s : Scope) (r : Rule) (t : Tree) :
    (r.transform s t).Ends (fun o => ∀ u, o = some u → r.Yields s t u) (r.StoppedBy s t) := by
  unfold transform
  split
  · exact Action.ends_pure fun u hu => by cases hu
  · rename_i found hfind
    refine Action.ends_bind (ends_areMet hfind r.conditions (List.Subset.refl _)) fun met hmet => ?_
    cases met with
    | false => exact Action.ends_pure fun u hu => by cases hu
    | true =>
        -- the tree that is yielded and the failure come from one run, so both facts are about it
        have hparts : ((r.result.fill found).evalParts s).Ends (r.Yields s t)
            fun e => ∀ f, e = .fault f → r.StoppedBy s t e := by
          intro d
          have hself := Action.ends_self ((r.result.fill found).evalParts s) d
          have hfails := Tree.ends_evalParts s (r.result.fill found) d
          generalize (runFrom ((r.result.fill found).evalParts s) d).1 = o at hself hfails
          cases o with
          | ok u => exact ⟨found, hfind, hmet rfl, hself⟩
          | error e =>
              rintro f rfl
              obtain ⟨u, hu, d, d', heval⟩ := hfails
              exact ⟨f, rfl, .result hfind hu heval⟩
        refine Action.ends_bind (Action.ends_attempt hparts) fun o ho => ?_
        cases o with
        | ok u =>
            refine Action.ends_pure fun u' hu' => ?_
            cases hu'
            exact ho u rfl
        | error e => exact Action.ends_pure fun u hu => by cases hu

end Rule

/-! ### Simplification -/

namespace Simplify

variable {s : Scope} {rules : List Rule} {limit : Int}

/-- What simplifying a tree may fail with: the error of too many firings, and breakdowns of a rule at a part of a
tree on the way, or where such a part is written as source text. -/
def MayFail (s : Scope) (rules : List Rule) (limit : Int) (t : Tree) : Failure → Prop
  | .error e => e = .tooManySteps limit
  | .fault f => ∃ u, Derives s rules t u ∧ ∃ v ∈ u.subtrees,
      (∃ r ∈ rules, r.BreaksDown s v f) ∨ v.source {} = .error f

theorem MayFail.of_derives {t u : Tree} (h : Derives s rules t u) {e : Failure}
    (he : MayFail s rules limit u e) : MayFail s rules limit t e := by
  cases e with
  | error e => exact he
  | fault f =>
      obtain ⟨v, hv, hbreaks⟩ := he
      exact ⟨v, h.trans hv, hbreaks⟩

/-- What an argument of a node may fail with, the node may. -/
theorem MayFail.argument (h : Head) (before after : List Tree) {t : Tree} {e : Failure}
    (he : MayFail s rules limit t e) : MayFail s rules limit (.node h (before ++ t :: after)) e := by
  cases e with
  | error e => exact he
  | fault f =>
      obtain ⟨u, hu, v, hv, hbreaks⟩ := he
      exact ⟨_, hu.argument h before after, v, Tree.subtrees_of_mem (by simp) hv, hbreaks⟩

namespace Run

variable {α β : Type} {P : α → Prop} {Q : Failure → Prop}

/-- What an action with a log of firings gives has one property, and what it fails with another. -/
def Ends (x : Run α) (P : α → Prop) (Q : Failure → Prop) : Prop :=
  ∀ fired, (x.run fired).Ends (fun r => P r.1) Q

theorem ends_pure {a : α} (h : P a) : Ends (pure a) P Q := fun _ => Action.ends_pure h

theorem ends_bind {x : Run α} {f : α → Run β} {P' : β → Prop} (hx : Ends x P Q)
    (hf : ∀ a, P a → Ends (f a) P' Q) : Ends (x >>= f) P' Q :=
  fun fired => Action.ends_bind (hx fired) fun r hr => hf r.1 hr r.2

theorem ends_lift {x : Action α} (h : x.Ends P Q) : Ends (liftM x : Run α) P Q :=
  fun _ => Action.ends_bind h fun _ ha => Action.ends_pure ha

theorem ends_get {Q : Failure → Prop} : Ends get (fun _ => True) Q := fun _ _ => trivial

theorem ends_set {Q : Failure → Prop} (fired : List Firing) : Ends (set fired) (fun _ => True) Q :=
  fun _ _ => trivial

theorem Ends.imp {x : Run α} {P' : α → Prop} {Q' : Failure → Prop} (h : Ends x P Q)
    (hP : ∀ a, P a → P' a) (hQ : ∀ e, Q e → Q' e) : Ends x P' Q' :=
  fun fired => (h fired).imp (fun r => hP r.1) hQ

end Run

theorem ends_firstToApply (t : Tree) : (rs : List Rule) → rs ⊆ rules →
    (firstToApply s t rs).Ends (fun o => ∀ r u, o = some (r, u) → Rewrites s rules t u)
      (MayFail s rules limit t)
  | [], _ => Action.ends_pure fun r u h => by cases h
  | r :: rs, hsub => by
      have hr := hsub List.mem_cons_self
      have htransform : (r.transform s t).Ends
          (fun o => ∀ u, o = some u → Rewrites s rules t u) (MayFail s rules limit t) := by
        intro d
        have hself := Action.ends_self (r.transform s t) d
        have hstopped := Rule.ends_transform s r t d
        generalize (runFrom (r.transform s t) d).1 = o at hself hstopped
        cases o with
        | ok o =>
            rintro u rfl
            obtain ⟨d, d', hrun⟩ := hself
            exact .head hr hrun
        | error e =>
            obtain ⟨f, rfl, hbreaks⟩ := hstopped
            exact ⟨t, .refl, t, Tree.mem_subtrees_self t, .inl ⟨r, hr, hbreaks⟩⟩
      refine Action.ends_bind htransform fun o ho => ?_
      cases o with
      | none => exact ends_firstToApply t rs fun q hq => hsub (List.mem_cons_of_mem r hq)
      | some u =>
          refine Action.ends_pure fun r' u' h => ?_
          cases h
          exact ho u rfl

/-- Writing a part of a tree on the way may break down. -/
theorem ends_source {t u : Tree} (h : Derives s rules t u) :
    (Action.ofFault (u.source {})).Ends (fun _ => True) (MayFail s rules limit t) := by
  intro d
  rw [Action.runFrom_ofFault]
  cases hsource : u.source {} with
  | ok text => trivial
  | error f => exact ⟨u, h, u, Tree.mem_subtrees_self u, .inr hsource⟩

theorem ends_fire (t : Tree) :
    Run.Ends (fire s rules limit t) (fun o => ∀ u, o = some u → Rewrites s rules t u)
      (MayFail s rules limit t) := by
  unfold fire
  refine Run.ends_bind (Run.ends_lift (ends_firstToApply t rules (List.Subset.refl _))) fun o ho => ?_
  cases o with
  | none => exact Run.ends_pure fun u hu => by cases hu
  | some p =>
      have hrewrites := ho p.1 p.2 rfl
      refine Run.ends_bind Run.ends_get fun fired _ => ?_
      show Run.Ends (if _ then _ else _) _ _
      split
      · exact Run.ends_lift fun _ => rfl
      -- the log has the tree before and after the firing as source text, and writing either may break down
      · refine Run.ends_bind (Run.ends_lift (ends_source .refl)) fun before _ => ?_
        refine Run.ends_bind (Run.ends_lift (ends_source (.single hrewrites))) fun after _ => ?_
        refine Run.ends_bind (Run.ends_set _) fun _ _ => Run.ends_pure fun u hu => ?_
        cases hu
        exact hrewrites

variable {again : Tree → Run Tree}

theorem ends_finish
    (hagain : ∀ t, Run.Ends (again t) (Derives s rules t) (MayFail s rules limit t)) (t : Tree) :
    Run.Ends (settleWith.finish (fire s rules limit) again t) (Derives s rules t)
      (MayFail s rules limit t) := by
  unfold settleWith.finish
  refine Run.ends_bind (ends_fire t) fun o ho => ?_
  cases o with
  | none => exact Run.ends_pure .refl
  | some u =>
      have hu : Derives s rules t u := .single (ho u rfl)
      exact (hagain u).imp (fun _ => hu.trans) fun _ => MayFail.of_derives hu

mutual

theorem ends_settleWith
    (hagain : ∀ t, Run.Ends (again t) (Derives s rules t) (MayFail s rules limit t)) :
    (t : Tree) → Run.Ends (settleWith (fire s rules limit) again t) (Derives s rules t)
      (MayFail s rules limit t)
  | .leaf v => by
      unfold settleWith
      exact ends_finish hagain _
  | .node h args => by
      unfold settleWith
      refine Run.ends_bind (ends_settleAllWith hagain h [] args) fun us hus => ?_
      exact (ends_finish hagain (.node h us)).imp (fun _ => hus.trans) fun _ => MayFail.of_derives hus

/-- The last arguments of a node. -/
theorem ends_settleAllWith
    (hagain : ∀ t, Run.Ends (again t) (Derives s rules t) (MayFail s rules limit t)) (h : Head)
    (before : List Tree) :
    (ts : List Tree) → Run.Ends (settleAllWith (fire s rules limit) again ts)
      (fun us => Derives s rules (.node h (before ++ ts)) (.node h (before ++ us)))
      (MayFail s rules limit (.node h (before ++ ts)))
  | [] => by
      unfold settleAllWith
      exact Run.ends_pure .refl
  | t :: ts => by
      unfold settleAllWith
      -- the arguments so far stand before the next one, so that each step is one of the whole node
      refine Run.ends_bind
        ((ends_settleWith hagain t).imp (fun _ h => h) fun _ => MayFail.argument h before ts)
        fun u hu => ?_
      have hnode := Derives.argument h before ts hu
      have hrest := ends_settleAllWith hagain h (before ++ [u]) ts
      simp only [List.append_assoc, List.singleton_append] at hrest
      refine Run.ends_bind (hrest.imp (fun _ h => h) fun _ => MayFail.of_derives hnode) fun us hus => ?_
      exact Run.ends_pure (hnode.trans hus)

end

theorem ends_settle (limit : Int) : (fuel : Nat) → (t : Tree) →
    Run.Ends (settle s rules limit fuel t) (Derives s rules t) (MayFail s rules limit t)
  | 0, t => by
      unfold settle
      exact ends_settleWith (fun u => Run.ends_lift fun _ => rfl) t
  | fuel + 1, t => by
      unfold settle
      exact ends_settleWith (ends_settle limit fuel) t

/-- **Failing conditions.** Applying a rule gives a tree that the rule yields, or nothing, or breaks down where a
condition or a calculated part does; it never fails with an error. So simplification gives a tree that is derived
from its tree, or fails because of too many firings, or breaks down where a rule does at a part of a tree on
the way, or where such a part is written as source text. -/
theorem outcome_apply_and_simplifyTracing (s : Scope) (t : Tree) :
    (∀ r : Rule, (r.apply s t).Ends
      (fun o => ∀ u, o = some u → r.Yields s.withoutVariables t u) (r.StoppedBy s.withoutVariables t)) ∧
    ∀ (R : Ruleset) (limit : Int), (R.simplifyTracing s limit t).Ends
      (fun p => Derives s.withoutVariables R.rules t p.1)
      (MayFail s.withoutVariables R.rules limit t) := by
  refine ⟨fun r => r.ends_transform s.withoutVariables t, fun R limit => ?_⟩
  unfold Ruleset.simplifyTracing
  exact Action.ends_bind (ends_settle limit limit.toNat t []) fun p hp => Action.ends_pure hp

/-- Whether an action breaks down in a certain way. -/
def breaksDownBy {α : Type} (f : Fault) (x : Action α) (d : Draws) : Bool :=
  match (runFrom x d).1 with
  | .error (.fault g) => g == f
  | _ => false

theorem exists_of_breaksDownBy {α : Type} {f : Fault} {x : Action α} {d : Draws}
    (h : breaksDownBy f x d = true) : ∃ d', runFrom x d = (.error (.fault f), d') := by
  unfold breaksDownBy at h
  rcases hrun : runFrom x d with ⟨r, d'⟩
  rw [hrun] at h
  rcases r with (e | g) | a
  · cases h
  · rw [beq_iff_eq] at h
    exact ⟨d', by rw [h]⟩
  · cases h

/-- `x + repeat(1, infinity)` -/
def endless : Tree :=
  .binary "+" (.leaf (.name "x" []))
    (.node (.call "repeat") [.leaf (.nat 1), .leaf (.number (.real Real.infinity))])

/-- The condition that `y` be negative breaks down where `y` repeats something without end, and so does
simplification. -/
theorem breaksDown_subtractNegative :
    (∃ r ∈ Ruleset.subtractNegative, ∃ d',
      runFrom (r.apply Library.scope endless) .default = (.error (.fault .overflow), d')) ∧
    ∃ d', runFrom ((Ruleset.mk Ruleset.subtractNegative .empty).simplifyTracing Library.scope usualLimit
      endless) .default = (.error (.fault .overflow), d') := by
  have hall : ((Ruleset.subtractNegative.any fun r =>
        breaksDownBy .overflow (r.apply Library.scope endless) .default) &&
      breaksDownBy .overflow ((Ruleset.mk Ruleset.subtractNegative .empty).simplifyTracing Library.scope
        usualLimit endless) .default) = true := by
    -- with the functions grouped by name the whole run can be calculated
    unfold Ruleset.simplifyTracing Rule.apply Scope.withoutVariables
    rw [Library.child_scope, Library.scope_eq]
    decide +kernel
  obtain ⟨hrule, hsimplify⟩ := Bool.and_eq_true_iff.1 hall
  obtain ⟨r, hr, hbreaks⟩ := List.any_eq_true.1 hrule
  exact ⟨⟨r, hr, exists_of_breaksDownBy hbreaks⟩, exists_of_breaksDownBy hsimplify⟩

end Simplify

end MathExpr
