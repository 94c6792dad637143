import MathExpr.Draw

/-!
# Outcomes of actions

Two actions have the same outcome if, from any state of the random numbers, both give
the same result or both fail alike, and leave the random numbers in the same state.
Errors are alike if they have the same kind: their arguments, which only show in
messages, may differ. Breakdowns are alike if they are equal.

`Action.outcome` forgets the arguments of errors. What follows an action depends on it
only through its outcome (`outcome_bind`), so that actions may be compared step by
step: `SameOutcome.bind` and `SameOutcome.mapM` are all that the comparison of two
evaluations needs.
-/

namespace MathExpr

/-! ### Results -/

theorem exists_of_bind_eq_ok {ε α β : Type} {x : Except ε α} {f : α → Except ε β} {b : β}
    (h : (x >>= f) = .ok b) : ∃ a, x = .ok a ∧ f a = .ok b := by
  cases x with
  | error e => cases h
  | ok a => exact ⟨a, rfl, h⟩

theorem mapError_ok {ε ε' α : Type} (f : ε → ε') (a : α) :
    (Except.ok a : Except ε α).mapError f = .ok a := rfl

theorem eq_ok_of_mapError {ε ε' α : Type} {x : Except ε α} {f : ε → ε'} {a : α}
    (h : x.mapError f = .ok a) : x = .ok a := by
  cases x with
  | error e => cases h
  | ok b => exact congrArg Except.ok (Except.ok.inj h)

/-- What each step of a loop keeps holds in the end. -/
theorem invariant_of_foldlM_eq_ok {ε α β : Type} {f : β → α → Except ε β} {P : β → Prop}
    {items : List α} (hstep : ∀ b a b', P b → f b a = .ok b' → P b') {b b' : β} (hb : P b)
    (h : items.foldlM f b = .ok b') : P b' := by
  induction items generalizing b with
  | nil =>
      cases h
      exact hb
  | cons a rest ih =>
      rw [List.foldlM_cons] at h
      obtain ⟨c, hc, hrest⟩ := exists_of_bind_eq_ok h
      exact ih (hstep b a c hb hc) hrest

/-- Each step of a loop that succeeds does. -/
theorem exists_of_foldlM_eq_ok {ε α β : Type} {f : β → α → Except ε β} {items : List α} {a : α}
    {b b' : β} (h : items.foldlM f b = .ok b') (ha : a ∈ items) : ∃ c c', f c a = .ok c' := by
  induction items generalizing b with
  | nil => cases ha
  | cons a' rest ih =>
      rw [List.foldlM_cons] at h
      obtain ⟨c, hc, hrest⟩ := exists_of_bind_eq_ok h
      rcases List.mem_cons.1 ha with rfl | ha
      · exact ⟨b, c, hc⟩
      · exact ih hrest ha

/-- Loops whose steps are the same are the same. -/
theorem foldlM_congr {m : Type → Type} [Monad m] {α β : Type} {f g : β → α → m β} {items : List α}
    (h : ∀ a ∈ items, ∀ b, f b a = g b a) (b : β) : items.foldlM f b = items.foldlM g b := by
  induction items generalizing b with
  | nil => rfl
  | cons a rest ih =>
      rw [List.foldlM_cons, List.foldlM_cons, h a List.mem_cons_self b]
      refine congrArg _ (funext fun c => ?_)
      exact ih (fun a' ha => h a' (List.mem_cons_of_mem a ha)) c

section

variable {ε α β : Type} {f g : α → Except ε β} {as : List α} {bs : List β}

/-- What a loop reads from a list is what it reads from the elements. -/
theorem map_eq_of_mapM_eq_ok (h : as.mapM f = .ok bs) : as.map f = bs.map .ok := by
  induction as generalizing bs with
  | nil =>
      cases h
      rfl
  | cons a rest ih =>
      rw [List.mapM_cons] at h
      obtain ⟨b, hb, h⟩ := exists_of_bind_eq_ok h
      obtain ⟨bs, hbs, h⟩ := exists_of_bind_eq_ok h
      cases h
      rw [List.map_cons, List.map_cons, hb, ih hbs]

theorem exists_mapM_eq_ok (h : ∀ a ∈ as, ∃ b, f a = .ok b) : ∃ bs, as.mapM f = .ok bs := by
  induction as with
  | nil => exact ⟨[], rfl⟩
  | cons a rest ih =>
      obtain ⟨b, hb⟩ := h a List.mem_cons_self
      obtain ⟨bs, hbs⟩ := ih fun a' ha => h a' (List.mem_cons_of_mem a ha)
      exact ⟨b :: bs, by rw [List.mapM_cons, hb, hbs]; rfl⟩

theorem mapM_eq_ok_mono (hfg : ∀ a b, f a = .ok b → g a = .ok b) (h : as.mapM f = .ok bs) :
    as.mapM g = .ok bs := by
  induction as generalizing bs with
  | nil => exact h
  | cons a rest ih =>
      rw [List.mapM_cons] at h ⊢
      obtain ⟨b, hb, h⟩ := exists_of_bind_eq_ok h
      obtain ⟨bs, hbs, h⟩ := exists_of_bind_eq_ok h
      rw [hfg a b hb, ih hbs]
      exact h

theorem getElem?_map_of_mapM_eq_ok (h : as.mapM f = .ok bs) (i : Nat) :
    as[i]?.map f = bs[i]?.map .ok := by
  rw [← List.getElem?_map, ← List.getElem?_map, map_eq_of_mapM_eq_ok h]

theorem exists_of_mapM_eq_ok (h : as.mapM f = .ok bs) {i : Nat} {b : β} (hb : bs[i]? = some b) :
    ∃ a, as[i]? = some a ∧ f a = .ok b := by
  have hget := getElem?_map_of_mapM_eq_ok h i
  rw [hb] at hget
  exact Option.map_eq_some_iff.1 hget

theorem exists_mem_of_mapM_eq_ok (h : as.mapM f = .ok bs) {b : β} (hb : b ∈ bs) : ∃ a ∈ as, f a = .ok b := by
  have hmem : .ok b ∈ as.map f := by
    rw [map_eq_of_mapM_eq_ok h]
    exact List.mem_map_of_mem hb
  exact List.mem_map.1 hmem

theorem exists_mem_of_mapM_eq_some {f : α → Option β} (h : as.mapM f = some bs) {b : β} (hb : b ∈ bs) :
    ∃ a ∈ as, f a = some b := by
  induction as generalizing bs with
  | nil =>
      cases h
      cases hb
  | cons a rest ih =>
      rw [List.mapM_cons] at h
      obtain ⟨b', hb', h⟩ := Option.bind_eq_some_iff.1 h
      obtain ⟨more, hmore, h⟩ := Option.bind_eq_some_iff.1 h
      cases h
      rcases List.mem_cons.1 hb with rfl | hb
      · exact ⟨a, List.mem_cons_self, hb'⟩
      · obtain ⟨a', ha', hf⟩ := ih hmore hb
        exact ⟨a', List.mem_cons_of_mem a ha', hf⟩

theorem exists_result_of_mapM_eq_ok (h : as.mapM f = .ok bs) {i : Nat} {a : α} (ha : as[i]? = some a) :
    ∃ b, bs[i]? = some b ∧ f a = .ok b := by
  have hget := getElem?_map_of_mapM_eq_ok h i
  rw [ha] at hget
  obtain ⟨b, hb, hf⟩ := Option.map_eq_some_iff.1 hget.symm
  exact ⟨b, hb, hf.symm⟩

end

/-! ### Failures -/

/-- What counts of a failure. -/
inductive Failure.Kind where
  | error (kind : String)
  | fault (f : Fault)
  deriving DecidableEq, Repr

/-- The kind of a failure. -/
def Failure.kind : Failure → Failure.Kind
  | .error e => .error e.kind
  | .fault f => .fault f

namespace Action

variable {α β : Type}

/-- What an action does from a state of the random numbers: its result or failure, and
the state that it leaves. -/
def runFrom (x : Action α) (d : Draws) : Except Failure α × Draws := x.run d

@[simp]
theorem runFrom_pure (a : α) (d : Draws) : runFrom (pure a) d = (.ok a, d) := rfl

@[simp]
theorem runFrom_throw (e : Failure) (d : Draws) :
    runFrom (throw e : Action α) d = (.error e, d) := rfl

/-- The second of two actions runs from where the first has left the random numbers,
and does not run if the first has failed. -/
theorem runFrom_bind (x : Action α) (f : α → Action β) (d : Draws) :
    runFrom (x >>= f) d =
      match runFrom x d with
      | (.ok a, d') => runFrom (f a) d'
      | (.error e, d') => (.error e, d') := by
  show (ExceptT.bind x f) d = _
  unfold runFrom ExceptT.run
  show (match x d with | (r, d') => ExceptT.bindCont f r d') = _
  rcases x d with ⟨r, d'⟩
  cases r with
  | ok a => rfl
  | error e => rfl

theorem ofFault_ok (a : α) : ofFault (.ok a) = Pure.pure a := rfl

theorem runFrom_ofFault (x : Except Fault α) (d : Draws) :
    runFrom (ofFault x) d = (x.mapError .fault, d) := rfl

theorem runFrom_tryCatch (x : Action α) (h : Failure → Action α) (d : Draws) :
    runFrom (tryCatch x h) d =
      match runFrom x d with
      | (.ok a, d') => (.ok a, d')
      | (.error e, d') => runFrom (h e) d' := by
  unfold runFrom
  rw [ExceptT.run_tryCatch]
  show (StateT.bind x.run _) d = _
  unfold StateT.bind
  rcases x.run d with ⟨r, d'⟩
  cases r with
  | ok a => rfl
  | error e => rfl

/-- An attempt turns errors into results, and nothing else. -/
theorem runFrom_attempt (x : Action α) (d : Draws) :
    runFrom (attempt x) d =
      match runFrom x d with
      | (.ok a, d') => (.ok (.ok a), d')
      | (.error (.error e), d') => (.ok (.error e), d')
      | (.error (.fault f), d') => (.error (.fault f), d') := by
  unfold attempt
  rw [runFrom_tryCatch, runFrom_bind]
  rcases runFrom x d with ⟨r, d'⟩
  cases r with
  | ok a => rfl
  | error e => cases e <;> rfl

/-- An action that never fails with an error, only by a breakdown. -/
def OnlyBreaksDown (x : Action α) : Prop :=
  ∀ d e d', runFrom x d = (.error e, d') → ∃ f, e = .fault f

theorem onlyBreaksDown_pure (a : α) : OnlyBreaksDown (pure a) := by
  intro d e d' h
  cases h

theorem onlyBreaksDown_breakDown (f : Fault) : OnlyBreaksDown (breakDown f : Action α) := by
  intro d e d' h
  cases h
  exact ⟨f, rfl⟩

theorem onlyBreaksDown_bind {x : Action α} {f : α → Action β} (hx : OnlyBreaksDown x)
    (hf : ∀ a, OnlyBreaksDown (f a)) : OnlyBreaksDown (x >>= f) := by
  intro d e d' h
  rw [runFrom_bind] at h
  rcases hrun : runFrom x d with ⟨r, d''⟩
  rw [hrun] at h
  cases r with
  | ok a => exact hf a d'' e d' h
  | error e' =>
      cases h
      exact hx d e _ hrun

theorem onlyBreaksDown_attempt (x : Action α) : OnlyBreaksDown (attempt x) := by
  intro d e d' h
  rw [runFrom_attempt] at h
  rcases hrun : runFrom x d with ⟨r, d''⟩
  rw [hrun] at h
  cases r with
  | ok a => cases h
  | error e' =>
      cases e' with
      | error e' => cases h
      | fault f =>
          cases h
          exact ⟨f, rfl⟩

/-- An action draws nothing if it has the same result, or failure, wherever the random
numbers stand, and leaves them there. -/
def DrawsNothing (x : Action α) : Prop := ∃ r, ∀ d, runFrom x d = (r, d)

/-- What an action does, of whose errors only the kind is left. -/
def outcome (x : Action α) (d : Draws) : Except Failure.Kind α × Draws :=
  ((runFrom x d).1.mapError Failure.kind, (runFrom x d).2)

theorem outcome_bind (x : Action α) (f : α → Action β) (d : Draws) :
    outcome (x >>= f) d =
      match outcome x d with
      | (.ok a, d') => outcome (f a) d'
      | (.error e, d') => (.error e, d') := by
  unfold outcome
  rw [runFrom_bind]
  rcases runFrom x d with ⟨r, d'⟩
  cases r with
  | ok a => rfl
  | error e => rfl

/-- Two actions with the same result, or failures of the same kind, and the same draws. -/
def SameOutcome (x y : Action α) : Prop := outcome x = outcome y

/-- Whatever an action gives as its result has a property. -/
def Returns (x : Action α) (P : α → Prop) : Prop :=
  ∀ d a d', runFrom x d = (.ok a, d') → P a

theorem returns_pure {a : α} {P : α → Prop} (h : P a) : (pure a : Action α).Returns P := by
  intro d b d' hrun
  cases hrun
  exact h

theorem returns_bind {x : Action α} {f : α → Action β} {P : α → Prop} {Q : β → Prop}
    (hx : x.Returns P) (hf : ∀ a, P a → (f a).Returns Q) : (x >>= f).Returns Q := by
  intro d b d' hrun
  rw [runFrom_bind] at hrun
  rcases hx' : runFrom x d with ⟨r, d''⟩
  rw [hx'] at hrun
  cases r with
  | ok a => exact hf a (hx d a d'' hx') d'' b d' hrun
  | error e => cases hrun

theorem returns_attempt {x : Action α} {P : α → Prop} (hx : x.Returns P) :
    (attempt x).Returns fun o => ∀ a, o = .ok a → P a := by
  intro d o d' hrun a ha
  rw [runFrom_attempt] at hrun
  rcases hx' : runFrom x d with ⟨r, d''⟩
  rw [hx'] at hrun
  cases r with
  | ok b =>
      cases hrun
      cases ha
      exact hx d a _ hx'
  | error e =>
      cases e with
      | error e =>
          cases hrun
          cases ha
      | fault f => cases hrun

theorem returns_true (x : Action α) : x.Returns fun _ => True := fun _ _ _ _ => trivial

namespace DrawsNothing

theorem pure (a : α) : DrawsNothing (Pure.pure a) := ⟨.ok a, fun _ => rfl⟩

theorem ofOutcome (x : Outcome α) : DrawsNothing (Action.ofOutcome x) := ⟨x, fun _ => rfl⟩

theorem fail (e : Error) : DrawsNothing (Action.fail e : Action α) := ⟨.error (.error e), fun _ => rfl⟩

theorem breakDown (f : Fault) : DrawsNothing (Action.breakDown f : Action α) :=
  ⟨.error (.fault f), fun _ => rfl⟩

/-- The second of two actions need draw nothing only for the results that there are. -/
theorem bind_of_returns {x : Action α} {f : α → Action β} {P : α → Prop}
    (hx : DrawsNothing x) (hP : x.Returns P) (hf : ∀ a, P a → DrawsNothing (f a)) :
    DrawsNothing (x >>= f) := by
  obtain ⟨r, hr⟩ := hx
  cases r with
  | error e =>
      refine ⟨.error e, fun d => ?_⟩
      rw [runFrom_bind, hr]
  | ok a =>
      obtain ⟨q, hq⟩ := hf a (hP .default a _ (hr _))
      refine ⟨q, fun d => ?_⟩
      rw [runFrom_bind, hr]
      exact hq d

theorem bind {x : Action α} {f : α → Action β} (hx : DrawsNothing x)
    (hf : ∀ a, DrawsNothing (f a)) : DrawsNothing (x >>= f) :=
  hx.bind_of_returns (returns_true x) fun a _ => hf a

theorem attempt {x : Action α} (hx : DrawsNothing x) : DrawsNothing (Action.attempt x) := by
  obtain ⟨r, hr⟩ := hx
  rcases r with e | a
  · cases e with
    | error e =>
        refine ⟨.ok (.error e), fun d => ?_⟩
        rw [runFrom_attempt, hr]
    | fault f =>
        refine ⟨.error (.fault f), fun d => ?_⟩
        rw [runFrom_attempt, hr]
  · refine ⟨.ok (.ok a), fun d => ?_⟩
    rw [runFrom_attempt, hr]

theorem mapM {f : α → Action β} {items : List α} (h : ∀ a ∈ items, DrawsNothing (f a)) :
    DrawsNothing (items.mapM f) := by
  induction items with
  | nil => exact pure []
  | cons a rest ih =>
      rw [List.mapM_cons]
      refine (h a List.mem_cons_self).bind fun b => ?_
      exact (ih fun a ha => h a (List.mem_cons_of_mem _ ha)).bind fun bs => pure _

theorem foldlM {f : β → α → Action β} {items : List α}
    (h : ∀ b, ∀ a ∈ items, DrawsNothing (f b a)) (b : β) : DrawsNothing (items.foldlM f b) := by
  induction items generalizing b with
  | nil => exact pure b
  | cons a rest ih =>
      rw [List.foldlM_cons]
      refine (h b a List.mem_cons_self).bind fun b => ?_
      exact ih (fun b a ha => h b a (List.mem_cons_of_mem _ ha)) b

end DrawsNothing

namespace SameOutcome

theorem refl (x : Action α) : SameOutcome x x := rfl

theorem symm {x y : Action α} (h : SameOutcome x y) : SameOutcome y x := Eq.symm h

theorem trans {x y z : Action α} (hxy : SameOutcome x y) (hyz : SameOutcome y z) :
    SameOutcome x z := Eq.trans hxy hyz

theorem of_eq {x y : Action α} (h : x = y) : SameOutcome x y := by rw [h]; exact refl y

/-- Actions one after the other: the second may depend on the result of the first, and
has to agree for the results that there are. -/
theorem bind_of_returns {x y : Action α} {f g : α → Action β} {P : α → Prop}
    (h : SameOutcome x y) (hy : y.Returns P) (hfg : ∀ a, P a → SameOutcome (f a) (g a)) :
    SameOutcome (x >>= f) (y >>= g) := by
  funext d
  rw [outcome_bind, outcome_bind, h]
  unfold outcome
  cases hrun : runFrom y d with
  | mk r d' =>
      cases r with
      | ok a => exact congrFun (hfg a (hy d a d' hrun)) d'
      | error e => rfl

theorem bind {x y : Action α} {f g : α → Action β} (h : SameOutcome x y)
    (hfg : ∀ a, SameOutcome (f a) (g a)) : SameOutcome (x >>= f) (y >>= g) :=
  h.bind_of_returns (returns_true y) fun a _ => hfg a

/-- One action for each element of a list. -/
theorem mapM {f g : α → Action β} {items : List α} (h : ∀ a ∈ items, SameOutcome (f a) (g a)) :
    SameOutcome (items.mapM f) (items.mapM g) := by
  induction items with
  | nil => exact refl _
  | cons a rest ih =>
      rw [List.mapM_cons, List.mapM_cons]
      refine bind (h a List.mem_cons_self) fun b => ?_
      exact bind (ih fun a ha => h a (List.mem_cons_of_mem _ ha)) fun bs => refl _

/-- Errors of the same kind. -/
theorem fail {e f : Error} (h : e.kind = f.kind) :
    SameOutcome (Action.fail e : Action α) (Action.fail f) := by
  funext d
  show (Except.error (Failure.Kind.error e.kind), d) = (Except.error (Failure.Kind.error f.kind), d)
  rw [h]

end SameOutcome

end Action

end MathExpr
