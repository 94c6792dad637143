import MathExpr.Definitions
import MathExpr.Proofs.Bindings
import MathExpr.Proofs.Outcome

/-!
# Actions that change a scope

What an action ensures that may change a scope: whatever the random numbers are, if the
scope has one property before, then the result and the scope after it have another
(`Resolving.Ensures`). The scope counts also where the action fails, as it keeps its
changes then. What an action ensures that succeeds and draws nothing is stated apart
(`Resolving.Succeeds`), with its result in place of an outcome.
-/

namespace MathExpr.Resolving

variable {α β : Type}

/-- What an action does from a scope and a state of the random numbers: its result, or
failure, and the scope and the state that it leaves. -/
def runFrom (x : Resolving α) (s : Scope) (d : Draws) : (Except Failure α × Scope) × Draws :=
  (x.run.run s).run d

/-- The second of two actions runs from where the first has led, and does not run if the first has
failed. -/
theorem runFrom_bind (x : Resolving α) (f : α → Resolving β) (s : Scope) (d : Draws) :
    (x >>= f).runFrom s d =
      match x.runFrom s d with
      | ((.ok a, s'), d') => (f a).runFrom s' d'
      | ((.error e, s'), d') => ((.error e, s'), d') := by
  have hrun : (x >>= f).runFrom s d =
      ExceptT.bindCont f (x.runFrom s d).1.1 (x.runFrom s d).1.2 (x.runFrom s d).2 := rfl
  rw [hrun]
  rcases x.runFrom s d with ⟨⟨r, s'⟩, d'⟩
  cases r <;> rfl

/-- From a scope with the first property, an action leaves a result and a scope with the
second. -/
def Ensures (P : Scope → Prop) (x : Resolving α) (Q : Except Failure α → Scope → Prop) : Prop :=
  ∀ s d, P s → Q (x.runFrom s d).1.1 (x.runFrom s d).1.2

variable {P : Scope → Prop} {Q R : Except Failure α → Scope → Prop} {x : Resolving α}

theorem ensures_pure {a : α} (h : ∀ s, P s → Q (.ok a) s) : Ensures P (pure a) Q :=
  fun s _ hP => h s hP

theorem ensures_throw {e : Failure} (h : ∀ s, P s → Q (.error e) s) : Ensures P (throw e) Q :=
  fun s _ hP => h s hP

theorem ensures_bind {f : α → Resolving β} {R : Except Failure β → Scope → Prop}
    (hx : Ensures P x Q) (herror : ∀ e s, Q (.error e) s → R (.error e) s)
    (hf : ∀ a, Ensures (Q (.ok a)) (f a) R) : Ensures P (x >>= f) R := by
  intro s d hP
  have hx := hx s d hP
  rw [runFrom_bind]
  rcases hres : x.runFrom s d with ⟨⟨r, s'⟩, d'⟩
  rw [hres] at hx
  cases r with
  | ok a => exact hf a s' d' hx
  | error e => exact herror e s' hx

/-- What depends on the value of a name in the scope. -/
theorem ensures_value?_bind {n : String} {f : Option Value → Resolving α}
    (h : ∀ s, P s → Ensures (· = s) (f (s.value? n)) Q) : Ensures P (value? n >>= f) Q :=
  fun s d hP => h s hP s d rfl

/-- What depends on the scope. -/
theorem ensures_get_bind {f : Scope → Resolving α} (h : ∀ s, P s → Ensures (· = s) (f s) Q) :
    Ensures P (get >>= f) Q :=
  fun s d hP => h s hP s d rfl

/-- An action that does not change the scope. -/
theorem ensures_ofAction {x : Action α}
    (h : ∀ s d, P s → Q (x.runFrom d).1 s) : Ensures P (ofAction x) Q :=
  fun s d hP => h s d hP

/-- A scope that is not frozen is changed. -/
theorem ensures_change {f : Scope → Scope} {Q : Except Failure Unit → Scope → Prop}
    (hok : ∀ s, P s → s.frozen = false → Q (.ok ()) (f s))
    (hfrozen : ∀ s, P s → s.frozen = true → Q (.error (.fault .frozenScope)) s) :
    Ensures P (change f) Q := by
  refine ensures_get_bind fun s hs => ?_
  rintro _ d rfl
  rename_i s
  cases hfreeze : s.frozen with
  | false =>
      rw [Scope.change, hfreeze]
      exact hok s hs hfreeze
  | true =>
      rw [Scope.change, hfreeze]
      exact hfrozen s hs hfreeze

section

attribute [local simp] runFrom ExceptT.run StateT.run tryCatch tryCatchThe MonadExceptOf.tryCatch
  ExceptT.tryCatch ExceptT.mk bind StateT.bind

theorem runFrom_tryCatch_ok {h : Failure → Resolving α} {s s' : Scope} {d d' : Draws} {a : α}
    (hx : x.runFrom s d = ((.ok a, s'), d')) : (tryCatch x h).runFrom s d = ((.ok a, s'), d') := by
  change x s d = _ at hx
  simp [hx]
  rfl

theorem runFrom_tryCatch_error {h : Failure → Resolving α} {s s' : Scope} {d d' : Draws}
    {e : Failure} (hx : x.runFrom s d = ((.error e, s'), d')) :
    (tryCatch x h).runFrom s d = (h e).runFrom s' d' := by
  change x s d = _ at hx
  simp [hx]

end

/-- Another error is raised in place of an error, but not of a breakdown. -/
theorem ensures_withError {f : Error → Error} (hx : Ensures P x Q)
    (hok : ∀ a s, Q (.ok a) s → R (.ok a) s)
    (herror : ∀ e s, Q (.error (.error e)) s → R (.error (.error (f e))) s)
    (hfault : ∀ e s, Q (.error (.fault e)) s → R (.error (.fault e)) s) :
    Ensures P (withError f x) R := by
  intro s d hP
  have hx := hx s d hP
  unfold withError
  rcases hres : x.runFrom s d with ⟨⟨r, s'⟩, d'⟩
  rw [hres] at hx
  cases r with
  | ok a =>
      rw [runFrom_tryCatch_ok hres]
      exact hok a s' hx
  | error e =>
      rw [runFrom_tryCatch_error hres]
      cases e with
      | error e => exact herror e s' hx
      | fault e => exact hfault e s' hx

/-- A loop that is left at the first failure. -/
theorem ensures_forM_of_step {items : List β} {f : β → Resolving PUnit} {I : Scope → Prop}
    {Q : Except Failure PUnit → Scope → Prop} (hstep : ∀ b ∈ items, Ensures I (f b) Q)
    (hgoOn : ∀ s, Q (.ok ()) s → I s) (hdone : ∀ s, I s → Q (.ok ()) s) :
    Ensures I (items.forM f) Q := by
  induction items with
  | nil => exact ensures_pure hdone
  | cons b rest ih =>
      refine ensures_bind (hstep b List.mem_cons_self) (fun e s hs => hs) fun _ s d hs => ?_
      exact ih (fun c hc => hstep c (List.mem_cons_of_mem b hc)) s d (hgoOn s hs)

/-- One action for each element of a list, of which later ones leave what earlier ones have done. -/
theorem ensures_forM {items : List β} {f : β → Resolving PUnit} {I : Scope → Prop}
    {D : β → Scope → Prop}
    (hstep : ∀ b ∈ items, Ensures I (f b) fun r s => I s ∧ (r = .ok () → D b s))
    (hkeep : ∀ b ∈ items, ∀ c, Ensures (fun s => I s ∧ D c s) (f b) fun _ s => D c s) :
    Ensures I (items.forM f) fun r s => I s ∧ (r = .ok () → ∀ b ∈ items, D b s) := by
  induction items with
  | nil => exact ensures_pure fun s hs => ⟨hs, fun _ _ hb => absurd hb List.not_mem_nil⟩
  | cons b rest ih =>
      have hmem {c : β} (hc : c ∈ rest) : c ∈ b :: rest := List.mem_cons_of_mem b hc
      have hrest := ih (fun c hc => hstep c (hmem hc)) fun c hc => hkeep c (hmem hc)
      have hdone : Ensures (fun s => I s ∧ D b s) (rest.forM f) fun _ s => I s ∧ D b s := by
        refine ensures_forM_of_step (fun c hc s d hs => ?_) (fun s hs => hs) fun s hs => hs
        exact ⟨(hstep c (hmem hc) s d hs.1).1, hkeep c (hmem hc) b s d hs⟩
      refine ensures_bind (hstep b List.mem_cons_self) (fun e s hs => ⟨hs.1, ?_⟩) fun _ s d hs => ?_
      · intro h
        cases h
      · obtain ⟨hI, hbs⟩ := hrest s d hs.1
        have hb := (hdone s d ⟨hs.1, hs.2 rfl⟩).2
        exact ⟨hI, fun hr => List.forall_mem_cons.2 ⟨hb, hbs hr⟩⟩

/-- What an action gives whose scope is only used by it. -/
theorem runFrom_runIn (x : Resolving α) (s : Scope) (d : Draws) :
    (runIn s x).runFrom d =
      ((x.runFrom s d).1.1.map fun a => (a, (x.runFrom s d).1.2), (x.runFrom s d).2) := by
  have hlift : Action.runFrom (liftM (StateT.run (ExceptT.run x) s)) d =
      (.ok (x.runFrom s d).1, (x.runFrom s d).2) := rfl
  unfold runIn
  rw [Action.runFrom_bind, hlift]
  rcases x.runFrom s d with ⟨⟨r, s'⟩, d'⟩
  cases r with
  | ok a => rfl
  | error e => rfl

/-! ### Actions that succeed -/

/-- From a scope with the first property, an action succeeds, draws nothing, and leaves a result and a
scope with the second. -/
def Succeeds (P : Scope → Prop) (x : Resolving α) (Q : α → Scope → Prop) : Prop :=
  ∀ s d, P s → ∃ a s', x.runFrom s d = ((.ok a, s'), d) ∧ Q a s'

section

variable {P : Scope → Prop} {Q R : α → Scope → Prop} {x : Resolving α}

theorem succeeds_pure {a : α} (h : ∀ s, P s → Q a s) : Succeeds P (pure a) Q :=
  fun s _ hP => ⟨a, s, rfl, h s hP⟩

theorem succeeds_bind {f : α → Resolving β} {R : β → Scope → Prop} (hx : Succeeds P x Q)
    (hf : ∀ a, Succeeds (Q a) (f a) R) : Succeeds P (x >>= f) R := by
  intro s d hP
  obtain ⟨a, s', hrun, hQ⟩ := hx s d hP
  rw [runFrom_bind, hrun]
  exact hf a s' d hQ

theorem succeeds_value?_bind {n : String} {f : Option Value → Resolving α}
    (h : ∀ s, P s → Succeeds (· = s) (f (s.value? n)) Q) : Succeeds P (value? n >>= f) Q :=
  fun s d hP => h s hP s d rfl

theorem succeeds_get_bind {f : Scope → Resolving α} (h : ∀ s, P s → Succeeds (· = s) (f s) Q) :
    Succeeds P (get >>= f) Q :=
  fun s d hP => h s hP s d rfl

theorem succeeds_ofAction {x : Action α} {a : α} (h : ∀ s, P s → ∀ d, x.runFrom d = (.ok a, d))
    (hQ : ∀ s, P s → Q a s) : Succeeds P (ofAction x) Q := by
  intro s d hP
  refine ⟨a, s, ?_, hQ s hP⟩
  have hrun : (ofAction x).runFrom s d = (((x.runFrom d).1, s), (x.runFrom d).2) := rfl
  rw [hrun, h s hP d]

theorem succeeds_change {f : Scope → Scope} {Q : Unit → Scope → Prop}
    (hfrozen : ∀ s, P s → s.frozen = false) (h : ∀ s, P s → Q () (f s)) :
    Succeeds P (change f) Q := by
  refine succeeds_get_bind fun s hs => ?_
  rintro _ d rfl
  rename_i s
  rw [Scope.change, hfrozen s hs]
  exact ⟨(), f s, rfl, h s hs⟩

theorem succeeds_withError {f : Error → Error} (hx : Succeeds P x Q) :
    Succeeds P (withError f x) Q := by
  intro s d hP
  obtain ⟨a, s', hrun, hQ⟩ := hx s d hP
  exact ⟨a, s', runFrom_tryCatch_ok hrun, hQ⟩

theorem succeeds_forM {items : List β} {f : β → Resolving PUnit} {I : Scope → Prop}
    (hstep : ∀ b ∈ items, Succeeds I (f b) fun _ => I) : Succeeds I (items.forM f) fun _ => I := by
  induction items with
  | nil => exact succeeds_pure fun s hs => hs
  | cons b rest ih =>
      exact succeeds_bind (hstep b List.mem_cons_self)
        fun _ => ih fun c hc => hstep c (List.mem_cons_of_mem b hc)

/-- What an action ensures holds where it succeeds. -/
theorem Succeeds.and_ensures (hx : Succeeds P x Q) {R : Except Failure α → Scope → Prop}
    (h : Ensures P x R) : Succeeds P x fun a s => Q a s ∧ R (.ok a) s := by
  intro s d hP
  obtain ⟨a, s', hrun, hQ⟩ := hx s d hP
  have hR := h s d hP
  rw [hrun] at hR
  exact ⟨a, s', hrun, hQ, hR⟩

end

end MathExpr.Resolving
