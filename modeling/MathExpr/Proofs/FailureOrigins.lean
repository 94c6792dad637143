import MathExpr.Proofs.Dependencies

/-!
# Where a failure comes from

The computation of a variable fails where it cannot go on with one of the variables that it needs, directly
or through others: one that needs itself, that is not defined, whose definition is empty or whose evaluation
fails. The variables that wait for this one hand the error on.

`Definition.Arises` says from which variable an error comes and through which dependencies it comes: the
steps are those of the computation, without what is made of an error on the way. Each failure of a
computation has an origin, and each origin is the one of a failure (`Definition.failsWith_compute_iff`). What
is reported keeps the category of the error where it arose. An error about what is missing altogether is
reported as it is, and any other in one wrapper for each dependency
(`Definition.compute_reports_origin`).
-/

namespace MathExpr

/-! ### Actions that fail with an error -/

namespace Resolving

variable {α β : Type} {x : Resolving α} {s : Scope} {d : Draws} {e : Error}

/-- From a scope and a state of the random numbers, an action fails with an error. -/
def FailsWith (x : Resolving α) (s : Scope) (d : Draws) (e : Error) : Prop :=
  (x.runFrom s d).1.1 = .error (.error e)

theorem failsWith_throw {e' : Error} :
    FailsWith (throw (.error e') : Resolving α) s d e ↔ e' = e := by
  constructor
  · intro h
    cases h
    rfl
  · rintro rfl
    rfl

theorem not_failsWith_pure {a : α} : ¬FailsWith (pure a) s d e := nofun

/-- What depends on the value of a name in the scope. -/
theorem failsWith_value?_bind {n : String} {f : Option Value → Resolving α} :
    FailsWith (value? n >>= f) s d e ↔ FailsWith (f (s.value? n)) s d e := Iff.rfl

/-- Of two actions either the first fails, or it succeeds and the second fails from where it has led. -/
theorem failsWith_bind {f : α → Resolving β} :
    FailsWith (x >>= f) s d e ↔ FailsWith x s d e ∨
      ∃ a s' d', x.runFrom s d = ((.ok a, s'), d') ∧ FailsWith (f a) s' d' e := by
  unfold FailsWith
  rw [runFrom_bind]
  rcases x.runFrom s d with ⟨⟨r, s'⟩, d'⟩
  cases r with
  | ok a =>
      constructor
      · exact fun h => .inr ⟨a, s', d', rfl, h⟩
      · rintro (h | ⟨a, s', d', heq, h⟩)
        · cases h
        · cases heq
          exact h
  | error e' =>
      constructor
      · intro h
        cases h
        exact .inl rfl
      · rintro (h | ⟨a, s', d', heq, h⟩)
        · cases h
          rfl
        · cases heq

/-- The errors of an action that has others in their place. -/
theorem failsWith_withError {f : Error → Error} :
    FailsWith (withError f x) s d e ↔ ∃ c, FailsWith x s d c ∧ f c = e := by
  unfold FailsWith withError
  rcases hres : x.runFrom s d with ⟨⟨r, s'⟩, d'⟩
  cases r with
  | ok a =>
      rw [runFrom_tryCatch_ok hres]
      exact iff_of_false nofun fun ⟨_, h, _⟩ => nomatch h
  | error e' =>
      rw [runFrom_tryCatch_error hres]
      cases e' with
      | error c =>
          constructor
          · intro h
            cases h
            exact ⟨c, rfl, rfl⟩
          · rintro ⟨_, h, rfl⟩
            cases h
            rfl
      | fault f => exact iff_of_false nofun fun ⟨_, h, _⟩ => nomatch h

/-- A change of a scope may break down, but fails with no error. -/
theorem not_failsWith_change {f : Scope → Scope} : ¬FailsWith (change f) s d e := by
  have h : Ensures (fun _ => True) (change f) fun r _ => r ≠ .error (.error e) :=
    ensures_change (fun _ _ _ => nofun) fun _ _ _ => nofun
  exact h s d trivial

/-- A loop fails where the actions before have succeeded and the next one fails. -/
theorem failsWith_forM {items : List β} {f : β → Resolving PUnit} :
    FailsWith (items.forM f) s d e ↔ ∃ before b after s' d', items = before ++ b :: after ∧
      (before.forM f).runFrom s d = ((.ok (), s'), d') ∧ FailsWith (f b) s' d' e := by
  have hcons (b : β) (rest : List β) : (b :: rest).forM f = f b >>= fun _ => rest.forM f := rfl
  induction items generalizing s d with
  | nil =>
      refine iff_of_false not_failsWith_pure ?_
      rintro ⟨before, b, after, s', d', h, -, -⟩
      cases before <;> cases h
  | cons b rest ih =>
      rw [hcons, failsWith_bind]
      constructor
      · rintro (h | ⟨_, s', d', hb, h⟩)
        · exact ⟨[], b, rest, s, d, rfl, rfl, h⟩
        · obtain ⟨before, c, after, s'', d'', rfl, hbefore, hc⟩ := ih.1 h
          refine ⟨b :: before, c, after, s'', d'', rfl, ?_, hc⟩
          rw [hcons, runFrom_bind, hb]
          exact hbefore
      · rintro ⟨before, c, after, s'', d'', heq, hbefore, hc⟩
        cases before with
        | nil =>
            cases heq
            cases hbefore
            exact .inl hc
        | cons b' before =>
            cases heq
            rw [hcons, runFrom_bind] at hbefore
            rcases hb : (f b).runFrom s d with ⟨⟨r, s'⟩, d'⟩
            rw [hb] at hbefore
            cases r with
            | error e' => cases hbefore
            | ok u => exact .inr ⟨u, s', d', rfl, ih.2 ⟨before, c, after, s'', d'', rfl, hbefore, hc⟩⟩

end Resolving

namespace Definition

open Resolving

/-! ### Origins -/

/-- Where a failure of a computation comes from: the error that arose, and the dependencies that it came
through, from the one of the variable that was asked for to the one where it arose. -/
structure Origin where
  chain : List String
  error : Error

variable {definitions : Table Definition} {path : List String} {name key : String} {s : Scope}
  {d : Draws} {e : Error}

/-- From a scope and a state of the random numbers, the computation of a variable fails, and this is where
the failure comes from. `path` holds the variables that wait for this one. -/
inductive Arises (definitions : Table Definition) :
    List String → String → Scope → Draws → Origin → Prop
  | circular {path : List String} {name : String} {s : Scope} {d : Draws}
      (hvalue : s.value? name = none) (hpath : path.contains (Text.lower name) = true) :
      Arises definitions path name s d ⟨[], circular path (Text.lower name)⟩
  | undefined {path : List String} {name : String} {s : Scope} {d : Draws}
      (hvalue : s.value? name = none) (hpath : path.contains (Text.lower name) = false)
      (hd : definitions.find? (Text.lower name) = none) :
      Arises definitions path name s d ⟨[], .undefinedDefinition (Text.lower name)⟩
  /-- All that the definition needs has been computed, and the definition is empty. -/
  | empty {path : List String} {name : String} {s s' : Scope} {d d' : Draws} {definition : Definition}
      (hvalue : s.value? name = none) (hpath : path.contains (Text.lower name) = false)
      (hd : definitions.find? (Text.lower name) = some definition)
      (hneeds : (definition.dependsOn.forM (resolve (compute definitions (Text.lower name :: path)))).runFrom
        s d = ((.ok (), s'), d'))
      (htree : definition.tree = none) :
      Arises definitions path name s d ⟨[], .emptyDefinition (Text.lower name)⟩
  /-- All that the definition needs has been computed, and its tree has no value. -/
  | evaluation {path : List String} {name : String} {s s' : Scope} {d d' : Draws}
      {definition : Definition} {t : Tree} {cause : Error}
      (hvalue : s.value? name = none) (hpath : path.contains (Text.lower name) = false)
      (hd : definitions.find? (Text.lower name) = some definition)
      (hneeds : (definition.dependsOn.forM (resolve (compute definitions (Text.lower name :: path)))).runFrom
        s d = ((.ok (), s'), d'))
      (htree : definition.tree = some t)
      (heval : ((s'.eval t).runFrom d').1 = .error (.error cause)) :
      Arises definitions path name s d ⟨[], .inDefinition (Text.lower name) cause⟩
  /-- What the definition needs has been computed up to a dependency, from which the failure comes. -/
  | dependency {path : List String} {name n : String} {s s' : Scope} {d d' : Draws}
      {definition : Definition} {before after : List String} {o : Origin}
      (hvalue : s.value? name = none) (hpath : path.contains (Text.lower name) = false)
      (hd : definitions.find? (Text.lower name) = some definition)
      (hdep : definition.dependsOn = before ++ n :: after)
      (hbefore : (before.forM (resolve (compute definitions (Text.lower name :: path)))).runFrom
        s d = ((.ok (), s'), d'))
      (hunbound : s'.value? n = none) (ho : Arises definitions (Text.lower name :: path) n s' d' o) :
      Arises definitions path name s d ⟨n :: o.chain, o.error⟩

/-- Whether an error is about what is missing altogether, which is reported as it is. -/
def isPassedOn : Error → Bool
  | .circularReference .. | .undefinedDefinition _ => true
  | _ => false

/-- The error that is reported, in one wrapper for each dependency unless it is passed on. -/
def Origin.report (o : Origin) : Error :=
  if isPassedOn o.error then o.error else o.chain.foldr Error.inDependency o.error

theorem asDependency_of_isPassedOn (n : String) (h : isPassedOn e = true) : asDependency n e = e := by
  cases e <;> first | rfl | cases h

theorem asDependency_of_not_isPassedOn (n : String) (h : isPassedOn e = false) :
    asDependency n e = .inDependency n e := by
  cases e <;> first | rfl | cases h

/-- A variable that waits makes of the report what it makes of any error. -/
theorem asDependency_report (n : String) (o : Origin) :
    asDependency n o.report = Origin.report ⟨n :: o.chain, o.error⟩ := by
  unfold Origin.report
  cases h : isPassedOn o.error with
  | true => exact asDependency_of_isPassedOn n h
  | false =>
      refine asDependency_of_not_isPassedOn n ?_
      show isPassedOn (o.chain.foldr Error.inDependency o.error) = false
      cases o.chain with
      | nil => exact h
      | cons m rest => rfl

/-! ### Failures have origins -/

theorem failsWith_evaluate {t : Tree} : FailsWith (evaluate key t) s d e ↔
    ∃ cause, ((s.eval t).runFrom d).1 = .error (.error cause) ∧ .inDefinition key cause = e := by
  show FailsWith (withError (.inDefinition key ·) (ofAction (s.eval t)) >>= fun v => _) s d e ↔ _
  rw [failsWith_bind, failsWith_withError, or_iff_left]
  · exact Iff.rfl
  · rintro ⟨v, s', d', -, h⟩
    rcases failsWith_bind.1 h with h | ⟨_, _, _, -, h⟩
    · exact not_failsWith_change h
    · exact not_failsWith_pure h

theorem failsWith_resolve {recurse : String → Resolving Value} {n : String} :
    FailsWith (resolve recurse n) s d e ↔
      s.value? n = none ∧ ∃ cause, FailsWith (recurse n) s d cause ∧ asDependency n cause = e := by
  show FailsWith (if (s.value? n).isNone = true then _ else _) s d e ↔ _
  cases hv : s.value? n with
  | some v => exact iff_of_false not_failsWith_pure nofun
  | none =>
      show FailsWith (withError (asDependency n) (recurse n) >>= fun _ => pure ()) s d e ↔ _
      rw [failsWith_bind, failsWith_withError, or_iff_left]
      · exact (and_iff_right rfl).symm
      · rintro ⟨_, _, _, -, h⟩
        exact not_failsWith_pure h

/-- A definition fails in one of its dependencies, or it is empty, or its tree has no value. -/
theorem failsWith_complete {recurse : String → Resolving Value} {definition : Definition} :
    FailsWith (complete recurse key definition) s d e ↔
      (∃ before n after s' d' cause, definition.dependsOn = before ++ n :: after ∧
        (before.forM (resolve recurse)).runFrom s d = ((.ok (), s'), d') ∧ s'.value? n = none ∧
        FailsWith (recurse n) s' d' cause ∧ asDependency n cause = e) ∨
      ∃ s' d', (definition.dependsOn.forM (resolve recurse)).runFrom s d = ((.ok (), s'), d') ∧
        ((definition.tree = none ∧ .emptyDefinition key = e) ∨
          ∃ t cause, definition.tree = some t ∧ ((s'.eval t).runFrom d').1 = .error (.error cause) ∧
            .inDefinition key cause = e) := by
  unfold complete
  rw [failsWith_bind, failsWith_forM]
  refine or_congr ?_ ?_
  · constructor
    · rintro ⟨before, n, after, s', d', hdep, hbefore, h⟩
      obtain ⟨hunbound, cause, hcause, he⟩ := failsWith_resolve.1 h
      exact ⟨before, n, after, s', d', cause, hdep, hbefore, hunbound, hcause, he⟩
    · rintro ⟨before, n, after, s', d', cause, hdep, hbefore, hunbound, hcause, he⟩
      exact ⟨before, n, after, s', d', hdep, hbefore, failsWith_resolve.2 ⟨hunbound, cause, hcause, he⟩⟩
  · have hunit {P : PUnit → Prop} : (∃ a, P a) ↔ P () := ⟨fun ⟨_, h⟩ => h, fun h => ⟨(), h⟩⟩
    rw [hunit]
    refine exists_congr fun s' => exists_congr fun d' => and_congr_right fun _ => ?_
    cases definition.tree with
    | none =>
        rw [failsWith_throw, or_iff_left (by rintro ⟨_, _, h, -⟩; cases h), and_iff_right rfl]
    | some t =>
        rw [failsWith_evaluate, or_iff_right (by rintro ⟨h, -⟩; cases h)]
        constructor
        · rintro ⟨cause, heval, he⟩
          exact ⟨t, cause, rfl, heval, he⟩
        · rintro ⟨_, cause, ⟨⟩, heval, he⟩
          exact ⟨cause, heval, he⟩

/-- A computation fails if the variable has no value, and waits for itself, has no definition, or has one
that fails. -/
theorem failsWith_compute : FailsWith (compute definitions path name) s d e ↔
    s.value? name = none ∧
      ((path.contains (Text.lower name) = true ∧ circular path (Text.lower name) = e) ∨
        (path.contains (Text.lower name) = false ∧
          ((definitions.find? (Text.lower name) = none ∧ .undefinedDefinition (Text.lower name) = e) ∨
            ∃ definition, definitions.find? (Text.lower name) = some definition ∧
              FailsWith (complete (compute definitions (Text.lower name :: path)) (Text.lower name)
                definition) s d e))) := by
  have hstep := congrFun (congrFun (compute_eq definitions) path) name
  rw [hstep]
  unfold computeStep
  rw [failsWith_value?_bind, Scope.value?_lower]
  cases s.value? name with
  | some v => exact iff_of_false not_failsWith_pure nofun
  | none =>
      rw [and_iff_right rfl]
      dsimp only
      cases hpath : path.contains (Text.lower name) with
      | true =>
          rw [if_pos rfl, failsWith_throw, and_iff_right rfl, or_iff_left (by rintro ⟨h, -⟩; cases h)]
      | false =>
          rw [if_neg Bool.false_ne_true, or_iff_right (by rintro ⟨h, -⟩; cases h), and_iff_right rfl]
          cases hd : definitions.find? (Text.lower name) with
          | none =>
              rw [failsWith_throw, and_iff_right rfl, or_iff_left (by rintro ⟨_, h, -⟩; cases h)]
          | some definition =>
              rw [or_iff_right (by rintro ⟨h, -⟩; cases h)]
              simp only [Option.some.injEq, exists_eq_left']

/-- Each failure of a computation has an origin, and is what is reported of it. -/
theorem exists_arises (h : FailsWith (compute definitions path name) s d e) :
    ∃ o, Arises definitions path name s d o ∧ o.report = e := by
  -- each dependency puts one more defined variable on the path
  induction hn : remaining definitions path using Nat.strong_induction_on generalizing path name s d e with
  | _ n ih =>
  subst hn
  obtain ⟨hvalue, hcases⟩ := failsWith_compute.1 h
  rcases hcases with ⟨hpath, rfl⟩ | ⟨hpath, ⟨hd, rfl⟩ | ⟨definition, hd, hcomplete⟩⟩
  · exact ⟨_, .circular hvalue hpath, rfl⟩
  · exact ⟨_, .undefined hvalue hpath hd, rfl⟩
  · rcases failsWith_complete.1 hcomplete with
      ⟨before, n, after, s', d', cause, hdep, hbefore, hunbound, hcause, rfl⟩ |
      ⟨s', d', hneeds, ⟨htree, rfl⟩ | ⟨t, cause, htree, heval, rfl⟩⟩
    · obtain ⟨o, ho, rfl⟩ := ih _ (remaining_cons_lt hpath hd) hcause rfl
      exact ⟨_, .dependency hvalue hpath hd hdep hbefore hunbound ho, (asDependency_report n o).symm⟩
    · exact ⟨_, .empty hvalue hpath hd hneeds htree, rfl⟩
    · exact ⟨_, .evaluation hvalue hpath hd hneeds htree heval, rfl⟩

/-- Each origin is the one of a failure. -/
theorem Arises.failsWith {o : Origin} (h : Arises definitions path name s d o) :
    FailsWith (compute definitions path name) s d o.report := by
  induction h with
  | circular hvalue hpath => exact failsWith_compute.2 ⟨hvalue, .inl ⟨hpath, rfl⟩⟩
  | undefined hvalue hpath hd => exact failsWith_compute.2 ⟨hvalue, .inr ⟨hpath, .inl ⟨hd, rfl⟩⟩⟩
  | empty hvalue hpath hd hneeds htree =>
      refine failsWith_compute.2 ⟨hvalue, .inr ⟨hpath, .inr ⟨_, hd, failsWith_complete.2 ?_⟩⟩⟩
      exact .inr ⟨_, _, hneeds, .inl ⟨htree, rfl⟩⟩
  | evaluation hvalue hpath hd hneeds htree heval =>
      refine failsWith_compute.2 ⟨hvalue, .inr ⟨hpath, .inr ⟨_, hd, failsWith_complete.2 ?_⟩⟩⟩
      exact .inr ⟨_, _, hneeds, .inr ⟨_, _, htree, heval, rfl⟩⟩
  | dependency hvalue hpath hd hdep hbefore hunbound _ ih =>
      refine failsWith_compute.2 ⟨hvalue, .inr ⟨hpath, .inr ⟨_, hd, failsWith_complete.2 ?_⟩⟩⟩
      exact .inl ⟨_, _, _, _, _, _, hdep, hbefore, hunbound, ih, asDependency_report _ _⟩

/-- A computation fails with what is reported of where its failure comes from. -/
theorem failsWith_compute_iff : FailsWith (compute definitions path name) s d e ↔
    ∃ o, Arises definitions path name s d o ∧ o.report = e := by
  refine ⟨exists_arises, ?_⟩
  rintro ⟨o, ho, rfl⟩
  exact ho.failsWith

/-- Where a dependency fails, not all dependencies are computed. -/
theorem Arises.not_computed {n : String} {s' : Scope} {d' : Draws} {o : Origin}
    (ho : Arises definitions (key :: path) n s' d' o) {before after : List String}
    (hbefore : (before.forM (resolve (compute definitions (key :: path)))).runFrom s d = ((.ok (), s'), d'))
    (hunbound : s'.value? n = none) {s'' : Scope} {d'' : Draws} :
    ((before ++ n :: after).forM (resolve (compute definitions (key :: path)))).runFrom s d ≠
      ((.ok (), s''), d'') := by
  intro hall
  have hfails : FailsWith ((before ++ n :: after).forM (resolve (compute definitions (key :: path)))) s d _ :=
    failsWith_forM.2 ⟨before, n, after, s', d', rfl, hbefore,
      failsWith_resolve.2 ⟨hunbound, _, ho.failsWith, rfl⟩⟩
  rw [FailsWith, hall] at hfails
  cases hfails

/-- A failure has one origin. -/
theorem Arises.unique {o o' : Origin} (h : Arises definitions path name s d o)
    (h' : Arises definitions path name s d o') : o' = o := by
  induction h generalizing o' with
  | circular _ hpath =>
      cases h' with
      | circular => rfl
      | undefined _ hpath' | empty _ hpath' | evaluation _ hpath' | dependency _ hpath' =>
          cases hpath.symm.trans hpath'
  | undefined _ hpath hd =>
      cases h' with
      | circular _ hpath' => cases hpath.symm.trans hpath'
      | undefined => rfl
      | empty _ _ hd' | evaluation _ _ hd' | dependency _ _ hd' => cases hd.symm.trans hd'
  | empty _ hpath hd hneeds htree =>
      cases h' with
      | circular _ hpath' => cases hpath.symm.trans hpath'
      | undefined _ _ hd' => cases hd.symm.trans hd'
      | empty => rfl
      | evaluation _ _ hd' _ htree' =>
          cases hd.symm.trans hd'
          cases htree.symm.trans htree'
      | dependency _ _ hd' hdep hbefore hunbound ho =>
          cases hd.symm.trans hd'
          rw [hdep] at hneeds
          exact absurd hneeds (ho.not_computed hbefore hunbound)
  | evaluation _ hpath hd hneeds htree heval =>
      cases h' with
      | circular _ hpath' => cases hpath.symm.trans hpath'
      | undefined _ _ hd' => cases hd.symm.trans hd'
      | empty _ _ hd' _ htree' =>
          cases hd.symm.trans hd'
          cases htree.symm.trans htree'
      | evaluation _ _ hd' hneeds' htree' heval' =>
          cases hd.symm.trans hd'
          cases hneeds.symm.trans hneeds'
          cases htree.symm.trans htree'
          cases heval.symm.trans heval'
          rfl
      | dependency _ _ hd' hdep hbefore hunbound ho =>
          cases hd.symm.trans hd'
          rw [hdep] at hneeds
          exact absurd hneeds (ho.not_computed hbefore hunbound)
  | dependency _ hpath hd hdep hbefore hunbound ho ih =>
      cases h' with
      | circular _ hpath' => cases hpath.symm.trans hpath'
      | undefined _ _ hd' => cases hd.symm.trans hd'
      | empty _ _ hd' hneeds' | evaluation _ _ hd' hneeds' =>
          cases hd.symm.trans hd'
          rw [hdep] at hneeds'
          exact absurd hneeds' (ho.not_computed hbefore hunbound)
      | dependency _ _ hd' hdep' hbefore' hunbound' ho' =>
          cases hd.symm.trans hd'
          -- the dependencies before the one that fails are the same, as all of them are computed
          rw [hdep] at hdep'
          rcases List.append_eq_append_iff.1 hdep' with ⟨_ | ⟨m, rest⟩, rfl, hmore⟩ | ⟨_ | ⟨m, rest⟩, rfl, hmore⟩
          · cases hmore
            rw [List.append_nil, hbefore] at hbefore'
            cases hbefore'
            rw [ih ho']
          · cases hmore
            exact absurd hbefore' (ho.not_computed hbefore hunbound)
          · cases hmore
            rw [List.append_nil, hbefore'] at hbefore
            cases hbefore
            rw [ih ho']
          · cases hmore
            exact absurd hbefore (ho'.not_computed hbefore' hunbound')

/-! ### What is reported -/

/-- The error that is reached by so many steps from an error to the one that caused it. -/
def causeAfter : Nat → Error → Option Error
  | 0, e => some e
  | n + 1, e => e.cause?.bind (causeAfter n)

/-- The key of the variable where a failure arose, where `name` is the variable that was asked for. -/
def Origin.place (name : String) (o : Origin) : String := Text.lower (o.chain.getLastD name)

/-- An error is raised at a variable: it needs itself, it is not defined, its definition is empty, or its
definition has no value. -/
inductive RaisedAt (definitions : Table Definition) (key : String) : Error → Prop
  | circular (text : String) : RaisedAt definitions key (.circularReference key text)
  | undefined (hd : definitions.find? key = none) : RaisedAt definitions key (.undefinedDefinition key)
  | empty {definition : Definition} (hd : definitions.find? key = some definition)
      (htree : definition.tree = none) : RaisedAt definitions key (.emptyDefinition key)
  | evaluation {definition : Definition} {t : Tree} {s : Scope} {d : Draws} {cause : Error}
      (hd : definitions.find? key = some definition) (htree : definition.tree = some t)
      (heval : ((s.eval t).runFrom d).1 = .error (.error cause)) :
      RaisedAt definitions key (.inDefinition key cause)

theorem Arises.raisedAt {o : Origin} (h : Arises definitions path name s d o) :
    RaisedAt definitions (o.place name) o.error := by
  induction h with
  | circular => exact .circular _
  | undefined _ _ hd => exact .undefined hd
  | empty _ _ hd _ htree => exact .empty hd htree
  | evaluation _ _ hd _ htree heval => exact .evaluation hd htree heval
  | @dependency path name n _ _ _ _ _ _ _ o _ _ _ _ _ _ _ ih =>
      have hplace : Origin.place name ⟨n :: o.chain, o.error⟩ = o.place n := by
        unfold Origin.place
        rw [List.getLastD_cons]
      rw [hplace]
      exact ih

/-- Along the chain each variable is mentioned by the definition of the one before. -/
theorem Arises.isChain {o : Origin} (h : Arises definitions path name s d o) :
    (Text.lower name :: o.chain.map Text.lower).IsChain (Mentions definitions) := by
  induction h with
  | dependency _ _ hd hdep _ _ _ ih =>
      refine .cons_cons ⟨_, hd, List.mem_map_of_mem ?_⟩ ih
      rw [hdep]
      exact List.mem_append_right _ List.mem_cons_self
  | _ => exact .singleton _

theorem category_report (o : Origin) : o.report.category = o.error.category := by
  unfold Origin.report
  split
  · rfl
  · induction o.chain with
    | nil => rfl
    | cons n rest ih => exact ih

theorem causeAfter_foldr (chain : List String) (e : Error) :
    causeAfter chain.length (chain.foldr Error.inDependency e) = some e := by
  induction chain with
  | nil => rfl
  | cons n rest ih => exact ih

/-- **Where a failure comes from.** If the computation of a variable fails with an error, then it comes
through a chain of dependencies, each mentioned by the definition of the one before, from a variable at which
an error was raised. What is reported has the category of that error. It is that error, if this is about
what is missing altogether, however long the chain is. Otherwise, if another variable was asked for, the
report names its dependency that leads to the origin, and one step for each dependency from an error to the
one that caused it leads from the report to the error that was raised. -/
theorem compute_reports_origin (definitions : Table Definition) (path : List String) (name : String)
    (s : Scope) (d : Draws) (e : Error)
    (h : ((compute definitions path name).runFrom s d).1.1 = .error (.error e)) :
    ∃ o, Arises definitions path name s d o ∧ (∀ o', Arises definitions path name s d o' → o' = o) ∧
      (Text.lower name :: o.chain.map Text.lower).IsChain (Mentions definitions) ∧
      RaisedAt definitions (o.place name) o.error ∧
      e.category = o.error.category ∧
      (isPassedOn o.error = true → e = o.error) ∧
      (isPassedOn o.error = false →
        (o.place name ≠ Text.lower name → ∃ n ∈ o.chain.head?, ∃ cause, e = .inDependency n cause) ∧
        causeAfter o.chain.length e = some o.error) := by
  obtain ⟨o, ho, rfl⟩ := failsWith_compute_iff.1 h
  refine ⟨o, ho, fun _ => ho.unique, ho.isChain, ho.raisedAt, category_report o, fun hpassed => if_pos hpassed,
    fun hpassed => ?_⟩
  have hreport : o.report = o.chain.foldr Error.inDependency o.error :=
    if_neg (by rw [hpassed]; exact Bool.false_ne_true)
  rw [hreport]
  refine ⟨fun hplace => ?_, causeAfter_foldr o.chain o.error⟩
  unfold Origin.place at hplace
  cases hchain : o.chain with
  | nil =>
      rw [hchain] at hplace
      exact absurd rfl hplace
  | cons n rest => exact ⟨n, rfl, _, rfl⟩

/-- `a` needs `b`, which needs `d` and `c`; `d` has a value, and `c` is a name without one. -/
def failingChain : Table Definition := ⟨[
  ("a", ⟨some (.leaf (.name "b" [])), ["b"]⟩),
  ("b", ⟨some (.leaf (.name "c" [])), ["d", "c"]⟩),
  ("c", ⟨some (.leaf (.name "q" [])), []⟩),
  ("d", ⟨some (.leaf (.boolean true)), []⟩)]⟩

theorem compute_reports_origin_failingChain :
    ((compute failingChain [] "a").runFrom .empty .default).1.1 = .error (.error
      (.inDependency "b" (.inDependency "c" (.inDefinition "c" (.undefinedVariable "q"))))) ∧
    ∃ o, Arises failingChain [] "a" .empty .default o ∧ isPassedOn o.error = false ∧
      causeAfter o.chain.length
        (.inDependency "b" (.inDependency "c" (.inDefinition "c" (.undefinedVariable "q")))) =
          some o.error := by
  have hrun : ((compute failingChain [] "a").runFrom .empty .default).1.1 = .error (.error
      (.inDependency "b" (.inDependency "c" (.inDefinition "c" (.undefinedVariable "q"))))) := rfl
  obtain ⟨o, ho, -, -, -, -, hpassed, hwrapped⟩ := compute_reports_origin _ _ _ _ _ _ hrun
  have hnot : isPassedOn o.error = false := by
    cases h : isPassedOn o.error with
    | false => rfl
    | true =>
        rw [← hpassed h] at h
        cases h
  exact ⟨hrun, o, ho, hnot, (hwrapped hnot).2⟩

end Definition

end MathExpr
