import MathExpr.Proofs.DefinitionOrder
import Mathlib.Data.List.Nodup

/-!
# Each definition is evaluated once

While a set of variables is made, the evaluations of definitions are recorded: which variable, which tree,
and the scope at that moment (`VariableSet.makeRecorded`). Without the record this is how the set is made
(`VariableSet.makeRecorded_erases`); the record is kept when a computation fails.

The variables that wait for another are not bound while this is computed, and after a success all that have
been evaluated are bound (`IsUnderway`). So a definition that is evaluated has not been evaluated before,
whatever definitions mention its variable (`ensures_recordedWith`).
-/

namespace MathExpr

/-- An evaluation of a definition: its variable, its tree, and the scope in which the tree is evaluated. -/
structure Evaluation where
  key : String
  tree : Tree
  scope : Scope

/-- A scope, and the evaluations that have been made, latest last. -/
structure Recorded where
  scope : Scope
  record : List Evaluation

/-- The variables whose definitions have been evaluated. -/
def Recorded.keys (r : Recorded) : List String := r.record.map Evaluation.key

/-- An action that may change a scope and records evaluations. The record is kept when the action fails. -/
abbrev Recording (α : Type) := ExceptT Failure (StateT Recorded (StateM Draws)) α

namespace Recording

variable {α β : Type}

/-- An action that records nothing. -/
def ofResolving (x : Resolving α) : Recording α :=
  ExceptT.mk fun r => do
    let (a, s) ← StateT.run (ExceptT.run x) r.scope
    return (a, { r with scope := s })

/-- Records an evaluation in the scope as it is. -/
def record (key : String) (t : Tree) : Recording Unit :=
  modify fun r => { r with record := r.record ++ [⟨key, t, r.scope⟩] }

/-- The same with another error in place of the one that is raised. -/
def withError (f : Error → Error) (x : Recording α) : Recording α :=
  tryCatch x fun
    | .error e => throw (.error (f e))
    | .fault e => throw (.fault e)

/-- What an action does from a scope with a record and a state of the random numbers. -/
def runFrom (x : Recording α) (r : Recorded) (d : Draws) : (Except Failure α × Recorded) × Draws :=
  (x.run.run r).run d

/-- An action does the same as one without a record. -/
def Erases (x : Recording α) (y : Resolving α) : Prop :=
  ∀ r d, y.runFrom r.scope d =
    (((x.runFrom r d).1.1, (x.runFrom r d).1.2.scope), (x.runFrom r d).2)

theorem runFrom_bind (x : Recording α) (f : α → Recording β) (r : Recorded) (d : Draws) :
    (x >>= f).runFrom r d =
      match x.runFrom r d with
      | ((.ok a, r'), d') => (f a).runFrom r' d'
      | ((.error e, r'), d') => ((.error e, r'), d') := by
  have hrun : (x >>= f).runFrom r d =
      ExceptT.bindCont f (x.runFrom r d).1.1 (x.runFrom r d).1.2 (x.runFrom r d).2 := rfl
  rw [hrun]
  rcases x.runFrom r d with ⟨⟨a, r'⟩, d'⟩
  cases a <;> rfl

theorem runFrom_withError (f : Error → Error) (x : Recording α) (r : Recorded) (d : Draws) :
    (withError f x).runFrom r d =
      match x.runFrom r d with
      | ((.error (.error e), r'), d') => ((.error (.error (f e)), r'), d')
      | run => run := by
  simp only [withError, runFrom, tryCatch, tryCatchThe, MonadExceptOf.tryCatch, ExceptT.tryCatch,
    ExceptT.run, StateT.run, ExceptT.mk, bind, StateT.bind]
  rcases x r d with ⟨⟨a, r'⟩, d'⟩
  cases a with
  | ok a => rfl
  | error e => cases e <;> rfl

namespace Erases

theorem pure (a : α) : Erases (Pure.pure a) (Pure.pure a) := fun _ _ => rfl

theorem throw (e : Failure) : Erases (MonadExcept.throw e : Recording α) (MonadExcept.throw e) :=
  fun _ _ => rfl

theorem ofResolving (x : Resolving α) : Erases (Recording.ofResolving x) x := fun _ _ => rfl

theorem bind {x : Recording α} {y : Resolving α} {f : α → Recording β} {g : α → Resolving β}
    (h : Erases x y) (hfg : ∀ a, Erases (f a) (g a)) : Erases (x >>= f) (y >>= g) := by
  intro r d
  have hrun : (y >>= g).runFrom r.scope d =
      ExceptT.bindCont g (y.runFrom r.scope d).1.1 (y.runFrom r.scope d).1.2 (y.runFrom r.scope d).2 := rfl
  rw [hrun, h r d, runFrom_bind]
  rcases x.runFrom r d with ⟨⟨a, r'⟩, d'⟩
  cases a with
  | ok a => exact hfg a r' d'
  | error e => rfl

theorem withError {x : Recording α} {y : Resolving α} (h : Erases x y) (f : Error → Error) :
    Erases (Recording.withError f x) (Resolving.withError f y) := by
  intro r d
  have hrun := h r d
  rw [runFrom_withError]
  unfold Resolving.withError
  rcases hx : x.runFrom r d with ⟨⟨a, r'⟩, d'⟩
  rw [hx] at hrun
  cases a with
  | ok a => exact Resolving.runFrom_tryCatch_ok hrun
  | error e =>
      rw [Resolving.runFrom_tryCatch_error hrun]
      cases e <;> rfl

theorem forM {items : List β} {f : β → Recording PUnit} {g : β → Resolving PUnit}
    (h : ∀ b, Erases (f b) (g b)) : Erases (items.forM f) (items.forM g) := by
  induction items with
  | nil => exact pure _
  | cons b rest ih => exact (h b).bind fun _ => ih

end Erases

/-! ### What an action ensures of the record -/

/-- From a scope and a record with the first property, an action leaves a result, a scope and a record with
the second. -/
def Ensures (P : Recorded → Prop) (x : Recording α) (Q : Except Failure α → Recorded → Prop) : Prop :=
  ∀ r d, P r → Q (x.runFrom r d).1.1 (x.runFrom r d).1.2

variable {P : Recorded → Prop} {Q R : Except Failure α → Recorded → Prop} {x : Recording α}

theorem ensures_pure {a : α} (h : ∀ r, P r → Q (.ok a) r) : Ensures P (pure a) Q :=
  fun r _ hP => h r hP

theorem ensures_throw {e : Failure} (h : ∀ r, P r → Q (.error e) r) : Ensures P (throw e) Q :=
  fun r _ hP => h r hP

theorem ensures_bind {f : α → Recording β} {R : Except Failure β → Recorded → Prop}
    (hx : Ensures P x Q) (herror : ∀ e r, Q (.error e) r → R (.error e) r)
    (hf : ∀ a, Ensures (Q (.ok a)) (f a) R) : Ensures P (x >>= f) R := by
  intro r d hP
  have hx := hx r d hP
  rw [runFrom_bind]
  rcases hres : x.runFrom r d with ⟨⟨a, r'⟩, d'⟩
  rw [hres] at hx
  cases a with
  | ok a => exact hf a r' d' hx
  | error e => exact herror e r' hx

/-- What is ensured of a failure does not depend on the error. -/
theorem ensures_withError {f : Error → Error} (hx : Ensures P x Q)
    (herror : ∀ e e' r, Q (.error e) r → Q (.error e') r) : Ensures P (withError f x) Q := by
  intro r d hP
  have hx := hx r d hP
  rw [runFrom_withError]
  rcases hres : x.runFrom r d with ⟨⟨a, r'⟩, d'⟩
  rw [hres] at hx
  cases a with
  | ok a => exact hx
  | error e =>
      cases e with
      | error e => exact herror _ _ r' hx
      | fault e => exact hx

theorem Ensures.and (hQ : Ensures P x Q) (hR : Ensures P x R) :
    Ensures P x fun a r => Q a r ∧ R a r :=
  fun r d hP => ⟨hQ r d hP, hR r d hP⟩

/-- What depends on the value of a name in the scope. -/
theorem ensures_value?_bind {n : String} {f : Option Value → Recording α}
    (h : ∀ r, P r → Ensures (· = r) (f (r.scope.value? n)) Q) :
    Ensures P (ofResolving (Resolving.value? n) >>= f) Q :=
  fun r d hP => h r hP r d rfl

/-- What is ensured without a record is ensured with one. -/
theorem Erases.ensures {y : Resolving α} {P : Scope → Prop} {Q : Except Failure α → Scope → Prop}
    (h : Erases x y) (hy : Resolving.Ensures P y Q) :
    Ensures (fun r => P r.scope) x fun a r => Q a r.scope := by
  intro r d hP
  have hQ := hy r.scope d hP
  rw [h r d] at hQ
  exact hQ

/-- A loop that is left at the first failure. -/
theorem ensures_forM {items : List β} {f : β → Recording PUnit} {I : Recorded → Prop}
    {Q : Except Failure PUnit → Recorded → Prop} (hstep : ∀ b ∈ items, Ensures I (f b) Q)
    (hgoOn : ∀ r, Q (.ok ()) r → I r) (hdone : ∀ r, I r → Q (.ok ()) r) :
    Ensures I (items.forM f) Q := by
  induction items with
  | nil => exact ensures_pure hdone
  | cons b rest ih =>
      refine ensures_bind (hstep b List.mem_cons_self) (fun e r hr => hr) fun _ r d hr => ?_
      exact ih (fun c hc => hstep c (List.mem_cons_of_mem b hc)) r d (hgoOn r hr)

end Recording

namespace Definition

open Recording

/-! ### Computing with a record -/

/-- Computes a dependency that has no value yet. -/
def recordedResolve (recurse : String → Recording Value) (dependency : String) : Recording PUnit := do
  if (← ofResolving (Resolving.value? dependency)).isNone then
    let _ ← withError (asDependency dependency) (recurse dependency)

/-- Evaluates a definition, which is recorded, and keeps the value. -/
def recordedEvaluate (key : String) (t : Tree) : Recording Value := do
  record key t
  ofResolving (evaluate key t)

/-- Computes what a definition needs, and then its value. -/
def recordedComplete (recurse : String → Recording Value) (key : String) (d : Definition) :
    Recording Value := do
  d.dependsOn.forM (recordedResolve recurse)
  match d.tree with
  | none => throw (.error (.emptyDefinition key))
  | some t => recordedEvaluate key t

/-- The value of a variable, computed with a record. -/
def recordedWith (definitions : Table Definition) :
    (depth : Nat) → (path : List String) → (name : String) → Recording Value
  | 0, _, _ => throw (.fault .tooDeep)
  | depth + 1, path, name => do
    let key := Text.lower name
    match ← ofResolving (Resolving.value? key) with
    | some v => return v
    | none =>
      if path.contains key then throw (.error (circular path key))
      else
        match definitions.find? key with
        | none => throw (.error (.undefinedDefinition key))
        | some d => recordedComplete (recordedWith definitions depth (key :: path)) key d

variable {definitions : Table Definition} {path : List String} {name key : String} {d : Definition}

theorem recordedResolve_erases {recurse : String → Recording Value} {recurse' : String → Resolving Value}
    (h : ∀ n, Erases (recurse n) (recurse' n)) (n : String) :
    Erases (recordedResolve recurse n) (resolve recurse' n) := by
  refine (Erases.ofResolving _).bind fun v => ?_
  cases v with
  | some v => exact .pure _
  | none => exact ((h n).withError _).bind fun _ => .pure _

theorem recordedEvaluate_erases (key : String) (t : Tree) :
    Erases (recordedEvaluate key t) (evaluate key t) := fun _ _ => rfl

theorem recordedComplete_erases {recurse : String → Recording Value}
    {recurse' : String → Resolving Value} (h : ∀ n, Erases (recurse n) (recurse' n)) (key : String)
    (d : Definition) : Erases (recordedComplete recurse key d) (complete recurse' key d) := by
  refine (Erases.forM (recordedResolve_erases h)).bind fun _ => ?_
  cases d.tree with
  | none => exact .throw _
  | some t => exact recordedEvaluate_erases key t

/-- Without the record a variable is computed as it is. -/
theorem recordedWith_erases (depth : Nat) (path : List String) (name : String) :
    Erases (recordedWith definitions depth path name) (computeWith definitions depth path name) := by
  induction depth generalizing path name with
  | zero => exact .throw _
  | succ depth ih =>
      refine (Erases.ofResolving _).bind fun v => ?_
      cases v with
      | some v => exact .pure v
      | none =>
          dsimp only
          split
          · exact .throw _
          · cases definitions.find? (Text.lower name) with
            | none => exact .throw _
            | some d => exact recordedComplete_erases (ih (Text.lower name :: path)) _ d

/-! ### What the record shows -/

/-- A record of evaluations from a scope on: each definition at most once, each after what it depends on,
and each in a scope of which all values are kept. What is bound was bound before or has been evaluated. -/
structure IsRecord (definitions : Table Definition) (s₀ : Scope) (r : Recorded) : Prop where
  nodup : r.keys.Nodup
  evaluated : ∀ e ∈ r.record, ∃ d, definitions.find? e.key = some d ∧ d.tree = some e.tree ∧
    ∀ n ∈ d.dependsOn, e.scope.binds n = true
  kept : ∀ e ∈ r.record, ∀ n v, e.scope.value? n = some v → r.scope.value? n = some v
  new : ∀ n, r.scope.binds n = true → s₀.binds n = true ∨ Text.lower n ∈ r.keys

/-- No evaluation has failed, and none of the variables of the path has its value yet. -/
structure IsUnderway (definitions : Table Definition) (s₀ : Scope) (path : List String) (r : Recorded) :
    Prop extends IsRecord definitions s₀ r where
  bound : ∀ k ∈ r.keys, r.scope.binds k = true
  waiting : ∀ k ∈ path, r.scope.value? k = none

/-- The record is as it should be, and after a success the computation may go on. -/
abbrev GoesOn {α : Type} (definitions : Table Definition) (s₀ : Scope) (path : List String)
    (a : Except Failure α) (r : Recorded) : Prop :=
  IsRecord definitions s₀ r ∧ ((∃ b, a = .ok b) → IsUnderway definitions s₀ path r)

theorem GoesOn.of_error {α : Type} {s₀ : Scope} {e : Failure} {r : Recorded}
    (h : IsRecord definitions s₀ r) : GoesOn (α := α) definitions s₀ path (.error e) r :=
  ⟨h, fun ⟨_, hb⟩ => by cases hb⟩

theorem IsUnderway.goesOn {α : Type} {s₀ : Scope} {a : Except Failure α} {r : Recorded}
    (h : IsUnderway definitions s₀ path r) : GoesOn definitions s₀ path a r :=
  ⟨h.toIsRecord, fun _ => h⟩

theorem IsUnderway.cons {s₀ : Scope} {r : Recorded} (h : IsUnderway definitions s₀ path r)
    (hkey : r.scope.value? key = none) : IsUnderway definitions s₀ (key :: path) r :=
  { h with waiting := List.forall_mem_cons.2 ⟨hkey, h.waiting⟩ }

theorem IsUnderway.of_cons {s₀ : Scope} {r : Recorded} (h : IsUnderway definitions s₀ (key :: path) r) :
    IsUnderway definitions s₀ path r :=
  { h with waiting := fun k hk => h.waiting k (List.mem_cons_of_mem _ hk) }

/-- A definition whose variable is not bound, but all that it depends on, may be evaluated. -/
theorem IsUnderway.record {s₀ : Scope} {r : Recorded} {t : Tree}
    (h : IsUnderway definitions s₀ (key :: path) r) (hd : definitions.find? key = some d)
    (ht : d.tree = some t) (hneeds : ∀ n ∈ d.dependsOn, r.scope.binds n = true) :
    IsRecord definitions s₀ { r with record := r.record ++ [⟨key, t, r.scope⟩] } := by
  have hkey : key ∉ r.keys := by
    intro hmem
    have hbound := h.bound key hmem
    rw [Scope.binds, h.waiting key List.mem_cons_self] at hbound
    cases hbound
  constructor
  · simp only [Recorded.keys, List.map_append, List.map_cons, List.map_nil]
    refine List.nodup_append.2 ⟨h.nodup, List.nodup_cons.2 ⟨List.not_mem_nil, .nil⟩, ?_⟩
    intro k hk k' hk' heq
    cases List.mem_singleton.1 hk'
    exact hkey (heq ▸ hk)
  · intro e he
    rcases List.mem_append.1 he with he | he
    · exact h.evaluated e he
    · cases List.mem_singleton.1 he
      exact ⟨d, hd, ht, hneeds⟩
  · intro e he
    rcases List.mem_append.1 he with he | he
    · exact h.kept e he
    · cases List.mem_singleton.1 he
      exact fun n v hv => hv
  · intro n hn
    rcases h.new n hn with hold | hnew
    · exact .inl hold
    · refine .inr ?_
      simp only [Recorded.keys, List.map_append]
      exact List.mem_append_left _ hnew

/-- The value of the definition that has been evaluated last is kept. -/
theorem IsUnderway.bind {s₀ : Scope} {r : Recorded} {t : Tree} {v : Value}
    (h : IsUnderway definitions s₀ (key :: path) r) (hd : definitions.find? key = some d)
    (ht : d.tree = some t) (hneeds : ∀ n ∈ d.dependsOn, r.scope.binds n = true)
    (hkey : Text.lower key = key) (hpath : ∀ k ∈ path, Text.lower k = k ∧ k ≠ key) :
    IsUnderway definitions s₀ path
      ⟨r.scope.bind key v, r.record ++ [⟨key, t, r.scope⟩]⟩ := by
  have hrecord := h.record hd ht hneeds
  have hvalue (n : String) := r.scope.value?_bind key n v
  rw [hkey] at hvalue
  have hkept (n : String) (w : Value) (hw : r.scope.value? n = some w) :
      (r.scope.bind key v).value? n = some w := by
    have hn : Text.lower n ≠ key := by
      intro hn
      rw [← Scope.value?_lower, hn, h.waiting key List.mem_cons_self] at hw
      cases hw
    rw [hvalue, if_neg hn, hw]
  constructor
  · constructor
    · exact hrecord.nodup
    · exact hrecord.evaluated
    · intro e he n w hw
      exact hkept n w (hrecord.kept e he n w hw)
    · intro n hn
      rw [Scope.binds, hvalue] at hn
      by_cases hn' : Text.lower n = key
      · refine .inr ?_
        rw [hn']
        simp [Recorded.keys]
      · rw [if_neg hn'] at hn
        exact hrecord.new n hn
  · intro k hk
    simp only [Recorded.keys, List.map_append, List.map_cons, List.map_nil] at hk
    rcases List.mem_append.1 hk with hk | hk
    · obtain ⟨w, hw⟩ := Option.isSome_iff_exists.1 (h.bound k hk)
      exact Option.isSome_iff_exists.2 ⟨w, hkept k w hw⟩
    · cases List.mem_singleton.1 hk
      rw [Scope.binds, hvalue, if_pos hkey]
      rfl
  · intro k hk
    obtain ⟨hlower, hne⟩ := hpath k hk
    rw [hvalue, hlower, if_neg hne]
    exact h.waiting k (List.mem_cons_of_mem _ hk)

/-- An evaluation binds the variable, or it fails and leaves the scope as it is. -/
theorem ensures_evaluate_bind (s : Scope) (key : String) (t : Tree) :
    Resolving.Ensures (· = s) (evaluate key t) fun a s' =>
      (∃ v, a = .ok v ∧ s' = s.bind key v) ∨ (∃ e, a = .error e) ∧ s' = s := by
  refine Resolving.ensures_get_bind fun s' hs => ?_
  subst hs
  refine Resolving.ensures_bind (Q := fun _ s => s = s') ?_ (fun e s hs => .inr ⟨⟨e, rfl⟩, hs⟩) fun v => ?_
  · exact Resolving.ensures_withError (Q := fun _ s => s = s')
      (Resolving.ensures_ofAction fun _ _ hs => hs) (fun _ _ hs => hs) (fun _ _ hs => hs)
      fun _ _ hs => hs
  · refine Resolving.ensures_bind (Q := fun a s =>
      a = .ok () ∧ s = s'.bind key v ∨ (∃ e, a = .error e) ∧ s = s') ?_ ?_ fun _ => ?_
    · refine Resolving.ensures_change (fun s hs _ => .inl ⟨rfl, ?_⟩) fun s hs _ => .inr ⟨⟨_, rfl⟩, hs⟩
      rw [hs]
    · rintro e s (⟨he, -⟩ | ⟨-, hs⟩)
      · cases he
      · exact .inr ⟨⟨e, rfl⟩, hs⟩
    · refine Resolving.ensures_pure ?_
      rintro s (⟨-, hs⟩ | ⟨⟨e, he⟩, -⟩)
      · exact .inl ⟨v, rfl, hs⟩
      · cases he

theorem ensures_recordedEvaluate {s₀ : Scope} {t : Tree} (hd : definitions.find? key = some d)
    (ht : d.tree = some t) (hkey : Text.lower key = key)
    (hpath : ∀ k ∈ path, Text.lower k = k ∧ k ≠ key) :
    Ensures (fun r => IsUnderway definitions s₀ (key :: path) r ∧
        ∀ n ∈ d.dependsOn, r.scope.binds n = true)
      (recordedEvaluate key t) (GoesOn definitions s₀ path) := by
  rintro r draws ⟨h, hneeds⟩
  show GoesOn definitions s₀ path ((evaluate key t).runFrom r.scope draws).1.1
    ⟨((evaluate key t).runFrom r.scope draws).1.2, r.record ++ [⟨key, t, r.scope⟩]⟩
  rcases ensures_evaluate_bind r.scope key t r.scope draws rfl with ⟨v, -, hs⟩ | ⟨⟨e, he⟩, hs⟩
  · rw [hs]
    exact (h.bind hd ht hneeds hkey hpath).goesOn
  · rw [he, hs]
    exact .of_error (h.record hd ht hneeds)

theorem ensures_recordedResolve {s₀ : Scope} {recurse : String → Recording Value} {n : String}
    (h : Ensures (IsUnderway definitions s₀ path) (recurse n) (GoesOn definitions s₀ path)) :
    Ensures (IsUnderway definitions s₀ path) (recordedResolve recurse n)
      (GoesOn definitions s₀ path) := by
  refine ensures_value?_bind fun r hr => ?_
  cases r.scope.value? n with
  | some v =>
      refine ensures_pure ?_
      rintro _ rfl
      exact hr.goesOn
  | none =>
      refine ensures_bind (Q := GoesOn definitions s₀ path) (P := (· = r)) ?_
        (fun e r hr => .of_error hr.1) fun v => ?_
      · rintro _ draws rfl
        exact ensures_withError h (fun e e' r hr => .of_error hr.1) _ draws hr
      · exact ensures_pure fun r hr => (hr.2 ⟨v, rfl⟩).goesOn

/-- After the dependencies of a definition have been computed, all of them are bound. -/
theorem ensures_binds_dependencies {P : Recorded → Prop} (depth : Nat) (path names : List String) :
    Ensures P (names.forM (recordedResolve (recordedWith definitions depth path)))
      fun a r => a = .ok () → ∀ n ∈ names, r.scope.binds n = true := by
  intro r draws _
  have herases : Erases (names.forM (recordedResolve (recordedWith definitions depth path)))
      (names.forM (resolve (computeWith definitions depth path))) :=
    Erases.forM (recordedResolve_erases (recordedWith_erases depth path))
  have hany (s₀ : Scope) : ClosedUnder definitions s₀ fun _ _ => True :=
    fun _ _ _ _ _ _ _ _ _ _ _ _ => trivial
  exact (herases.ensures (ensures_forM_names (hany r.scope)
    (fun Q s₀ hclosed n => ensures_resolve (ensures_computeWith hclosed depth path n)) names)
    r draws (.refl _ _)).2

/-- The computation of a variable keeps the record as it should be. -/
theorem ensures_recordedWith {s₀ : Scope} (depth : Nat) (hpath : ∀ k ∈ path, Text.lower k = k)
    (name : String) :
    Ensures (IsUnderway definitions s₀ path) (recordedWith definitions depth path name)
      (GoesOn definitions s₀ path) := by
  induction depth generalizing path name with
  | zero => exact ensures_throw fun r hr => .of_error hr.toIsRecord
  | succ depth ih =>
      refine ensures_value?_bind fun r hr => ?_
      cases hv : r.scope.value? (Text.lower name) with
      | some v =>
          refine ensures_pure ?_
          rintro _ rfl
          exact hr.goesOn
      | none =>
          dsimp only
          split
          · refine ensures_throw ?_
            rintro _ rfl
            exact .of_error hr.toIsRecord
          · rename_i hmem
            cases hd : definitions.find? (Text.lower name) with
            | none =>
                refine ensures_throw ?_
                rintro _ rfl
                exact .of_error hr.toIsRecord
            | some d =>
                rintro _ draws rfl
                have hlower := Text.lower_lower name
                have hcons : ∀ k ∈ Text.lower name :: path, Text.lower k = k :=
                  List.forall_mem_cons.2 ⟨hlower, hpath⟩
                have hne : ∀ k ∈ path, Text.lower k = k ∧ k ≠ Text.lower name := fun k hk =>
                  ⟨hpath k hk, fun hk' => hmem (List.contains_iff_mem.2 (hk' ▸ hk))⟩
                have hloop : Ensures (IsUnderway definitions s₀ (Text.lower name :: path))
                    (d.dependsOn.forM (recordedResolve (recordedWith definitions depth
                      (Text.lower name :: path))))
                    (GoesOn definitions s₀ (Text.lower name :: path)) :=
                  ensures_forM (fun n _ => ensures_recordedResolve (ih hcons n))
                    (fun r hr => hr.2 ⟨(), rfl⟩) fun r hr => hr.goesOn
                refine ensures_bind (hloop.and (ensures_binds_dependencies depth _ d.dependsOn))
                  (fun e r hr => .of_error hr.1.1) (fun _ => ?_) _ draws (hr.cons hv)
                cases ht : d.tree with
                | none => exact ensures_throw fun r hr => .of_error hr.1.1
                | some t =>
                    exact fun r draws hr => ensures_recordedEvaluate hd ht hlower hne r draws
                      ⟨hr.1.2 ⟨(), rfl⟩, hr.2 rfl⟩

end Definition

/-! ### Sets of variables -/

namespace VariableSet

open Recording
open Definition (computeAll)

/-- The set of the variables that a scope has, with whether the condition holds. -/
def conclude (definitions : Table Definition) (condition : Option Condition) (s : Scope) :
    Action VariableSet :=
  let values := .ofList (definitions.keys.filterMap fun name =>
    (s.value? name).map fun v => (name, v))
  match condition with
  | none => return ⟨values, true, s⟩
  | some c => return ⟨values, ← c.holds s, s⟩

theorem returns_conclude (definitions : Table Definition) (condition : Option Condition) (s : Scope) :
    (conclude definitions condition s).Returns fun set => set.scope = s := by
  cases condition with
  | none => exact Action.returns_pure rfl
  | some c => exact Action.returns_bind (Action.returns_true _) fun b _ => Action.returns_pure rfl

/-- All variables are computed, and then it is concluded whether the condition holds. -/
theorem runFrom_make_conclude (s : Scope) (definitions : Table Definition) (condition : Option Condition)
    (draws : Draws) :
    (make s definitions condition).runFrom draws =
      match (computeAll definitions).runFrom s.child draws with
      | ((.ok (), s'), draws') => (conclude definitions condition s').runFrom draws'
      | ((.error e, _), draws') => (.error e, draws') := by
  have hmake : make s definitions condition = Resolving.runIn s.child (computeAll definitions) >>= fun r =>
      conclude definitions condition r.2 := rfl
  rw [hmake, Action.runFrom_bind, Resolving.runFrom_runIn]
  rcases (computeAll definitions).runFrom s.child draws with ⟨⟨a, s'⟩, draws'⟩
  cases a <;> rfl

/-- Computes the variables of all definitions, with a record. -/
def computeRecorded (definitions : Table Definition) : Recording PUnit :=
  definitions.keys.forM fun name => do
    let _ ← Definition.recordedWith definitions (definitions.entries.length + 1) [] name

/-- The variables with some definitions, with a record of the evaluations of definitions. -/
def makeRecorded (definitions : Table Definition) (condition : Option Condition) :
    Recording VariableSet := do
  computeRecorded definitions
  ofResolving (do Resolving.ofAction (conclude definitions condition (← get)))

variable {definitions : Table Definition} {condition : Option Condition} {s : Scope} {draws : Draws}

theorem computeRecorded_erases (definitions : Table Definition) :
    Erases (computeRecorded definitions) (computeAll definitions) :=
  Erases.forM fun name => (Definition.recordedWith_erases _ [] name).bind fun _ => .pure _

/-- Without the record a set is made as it is. -/
theorem makeRecorded_erases (s : Scope) (definitions : Table Definition) (condition : Option Condition)
    (draws : Draws) :
    (make s definitions condition).runFrom draws =
      (((makeRecorded definitions condition).runFrom ⟨s.child, []⟩ draws).1.1,
        ((makeRecorded definitions condition).runFrom ⟨s.child, []⟩ draws).2) := by
  rw [runFrom_make_conclude, makeRecorded, Recording.runFrom_bind,
    computeRecorded_erases definitions ⟨s.child, []⟩ draws]
  rcases (computeRecorded definitions).runFrom ⟨s.child, []⟩ draws with ⟨⟨a, r⟩, draws'⟩
  cases a <;> rfl

theorem ensures_computeRecorded (definitions : Table Definition) (s : Scope) :
    Ensures (Definition.IsUnderway definitions s []) (computeRecorded definitions)
      (Definition.GoesOn definitions s []) := by
  refine ensures_forM (fun name _ => ?_) (fun r hr => hr.2 ⟨(), rfl⟩) fun r hr => hr.goesOn
  exact ensures_bind (Definition.ensures_recordedWith _ (fun _ hk => absurd hk List.not_mem_nil) name)
    (fun e r hr => .of_error hr.1) fun v => ensures_pure fun r hr => (hr.2 ⟨v, rfl⟩).goesOn

/-- After all variables have been computed, each has a value. -/
theorem ensures_computeRecorded_binds {P : Recorded → Prop} (definitions : Table Definition) :
    Ensures P (computeRecorded definitions)
      fun a r => a = .ok () → ∀ name ∈ definitions.keys, r.scope.binds name = true := by
  intro r draws _
  have hany (s₀ : Scope) : Definition.ClosedUnder definitions s₀ fun _ _ => True :=
    fun _ _ _ _ _ _ _ _ _ _ _ _ => trivial
  have hensures := Definition.ensures_computeAll_grown (hany r.scope)
  exact ((computeRecorded_erases definitions).ensures hensures r draws (.refl _ _)).2

/-- **Each definition is evaluated once, and after its dependencies.** Whether it succeeds or fails, while
a set of variables is made the definition of each variable is evaluated at most once, and in a scope in
which all that it depends on is bound. If the set is made, each defined variable that was not bound before
has been evaluated exactly once; and whatever value a variable had in an evaluation, it has it in the
end. -/
theorem make_evaluates_once (s : Scope) (definitions : Table Definition) (condition : Option Condition)
    (draws : Draws) :
    let run := (makeRecorded definitions condition).runFrom ⟨s.child, []⟩ draws
    let made := run.1.1
    let record := run.1.2.record
    (make s definitions condition).runFrom draws = (made, run.2) ∧
    (record.map Evaluation.key).Nodup ∧
    (∀ e ∈ record, ∃ d, definitions.find? e.key = some d ∧ d.tree = some e.tree ∧
      ∀ n ∈ d.dependsOn, e.scope.binds n = true) ∧
    ∀ set, made = .ok set →
      (∀ name ∈ definitions.keys, s.binds name = false →
        (record.map Evaluation.key).count (Text.lower name) = 1) ∧
      ∀ e ∈ record, ∀ n v, e.scope.value? n = some v → set.scope.value? n = some v := by
  intro run made record
  have hstart : Definition.IsUnderway definitions s [] ⟨s.child, []⟩ :=
    { nodup := List.nodup_nil
      evaluated := fun e he => absurd he List.not_mem_nil
      kept := fun e he => absurd he List.not_mem_nil
      new := fun n hn => .inl hn
      bound := fun k hk => absurd hk List.not_mem_nil
      waiting := fun k hk => absurd hk List.not_mem_nil }
  have hrecord := ensures_computeRecorded definitions s ⟨s.child, []⟩ draws hstart
  have hbinds := ensures_computeRecorded_binds definitions ⟨s.child, []⟩ draws hstart
  -- the conclusion leaves the record and the scope as they are
  have hconclude : record = ((computeRecorded definitions).runFrom ⟨s.child, []⟩ draws).1.2.record ∧
      ∀ set, made = .ok set →
        ((computeRecorded definitions).runFrom ⟨s.child, []⟩ draws).1.1 = .ok () ∧
        set.scope = ((computeRecorded definitions).runFrom ⟨s.child, []⟩ draws).1.2.scope := by
    unfold record made run makeRecorded
    rw [runFrom_bind]
    rcases (computeRecorded definitions).runFrom ⟨s.child, []⟩ draws with ⟨⟨a, r⟩, draws'⟩
    cases a with
    | error e => exact ⟨rfl, fun set hset => by cases hset⟩
    | ok u =>
        refine ⟨rfl, fun set hset => ⟨rfl, ?_⟩⟩
        exact returns_conclude definitions condition r.scope draws' set _ (Prod.ext hset rfl)
  obtain ⟨hsame, hmade⟩ := hconclude
  refine ⟨makeRecorded_erases s definitions condition draws, ?_, ?_, fun set hset => ?_⟩
  · rw [hsame]
    exact hrecord.1.nodup
  · rw [hsame]
    exact hrecord.1.evaluated
  · obtain ⟨hok, hscope⟩ := hmade set hset
    rw [hsame, hscope]
    refine ⟨fun name hname hunbound => ?_, hrecord.1.kept⟩
    rcases hrecord.1.new name (hbinds hok name hname) with hold | hnew
    · rw [hold] at hunbound
      cases hunbound
    · exact List.count_eq_one_of_mem hrecord.1.nodup hnew

/-- Two definitions that mention a third: it is evaluated once. -/
theorem make_evaluates_once_shared :
    let definitions : Table Definition :=
      ⟨[("a", ⟨some (.leaf (.name "r" [])), ["r"]⟩), ("b", ⟨some (.leaf (.name "r" [])), ["r"]⟩),
        ("r", ⟨some (.leaf (.boolean true)), []⟩)]⟩
    (((makeRecorded definitions none).runFrom ⟨Scope.empty.child, []⟩ .default).1.2.record.map
      Evaluation.key).count "r" = 1 := by
  intro definitions
  exact ((make_evaluates_once .empty definitions none .default).2.2.2 _ rfl).1 "r"
    (.tail _ (.tail _ (.head _))) rfl

end VariableSet

end MathExpr
