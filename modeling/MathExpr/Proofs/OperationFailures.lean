import MathExpr.Proofs.FailingConditions

/-!
# What operations fail with

An operation on values may break down, and its errors are about the kinds of its arguments or about numbers
(`Primitive.fails_apply`). An error about names never comes from an operation.
-/

namespace MathExpr

/-- Whether a failure is a breakdown, or an error about kinds or numbers. -/
def Failure.isOfOperation : Failure → Bool
  | .error e => e.category == .dispatching || e.category == .numeric
  | .fault _ => true

/-! ### Outcomes -/

/-- An outcome that fails only as an operation does. -/
def Outcome.FailsAsOperation {α : Type} (x : Outcome α) : Prop :=
  ∀ e, x = .error e → e.isOfOperation = true

namespace Outcome.FailsAsOperation

variable {α β : Type}

theorem ok (a : α) : FailsAsOperation (.ok a) := nofun

theorem error {e : Failure} (h : e.isOfOperation = true) : FailsAsOperation (.error e : Outcome α) := by
  rintro _ ⟨⟩
  exact h

theorem lift (x : Except Fault α) : FailsAsOperation (liftM x : Outcome α) := by
  cases x with
  | ok a => exact ok a
  | error f => exact error rfl

theorem bind {x : Outcome α} {f : α → Outcome β} (hx : FailsAsOperation x)
    (hf : ∀ a, FailsAsOperation (f a)) : FailsAsOperation (x >>= f) := by
  cases x with
  | ok a => exact hf a
  | error e => exact error (hx e rfl)

theorem mapM {f : α → Outcome β} (hf : ∀ a, FailsAsOperation (f a)) (items : List α) :
    FailsAsOperation (items.mapM f) := by
  induction items with
  | nil => exact ok []
  | cons a rest ih =>
      rw [List.mapM_cons]
      exact (hf a).bind fun b => ih.bind fun bs => ok (b :: bs)

theorem foldlM {f : β → α → Outcome β} (hf : ∀ b a, FailsAsOperation (f b a)) (items : List α) (b : β) :
    FailsAsOperation (items.foldlM f b) := by
  induction items generalizing b with
  | nil => exact ok b
  | cons a rest ih =>
      rw [List.foldlM_cons]
      exact (hf b a).bind ih

/-- Where something is missing there is an error, and otherwise what is done with it. -/
theorem elim {o : Option α} {e : Failure} {f : α → Outcome β} (he : e.isOfOperation = true)
    (hf : ∀ a, FailsAsOperation (f a)) : FailsAsOperation (o.elim (.error e) f) := by
  cases o with
  | none => exact error he
  | some a => exact hf a

end Outcome.FailsAsOperation

open Outcome (FailsAsOperation)

/-! ### Numbers and matrices -/

namespace Number

variable (a b : Number)

theorem fails_ordered : FailsAsOperation a.ordered := by
  cases a with
  | real x => exact .ok x
  | complex z => exact .error rfl

theorem fails_compareWith (f : Float → Float → Bool) : FailsAsOperation (compareWith f a b) :=
  a.fails_ordered.bind fun _ => b.fails_ordered.bind fun _ => .ok _

theorem fails_max : FailsAsOperation (a.max b) :=
  a.fails_ordered.bind fun _ => b.fails_ordered.bind fun _ => .ok _

theorem fails_min : FailsAsOperation (a.min b) :=
  a.fails_ordered.bind fun _ => b.fails_ordered.bind fun _ => .ok _

theorem fails_realAt (place : String) : FailsAsOperation (a.realAt place) := by
  unfold realAt
  split
  · exact .error rfl
  · exact .ok _

theorem fails_mod : FailsAsOperation (a.mod b) := by
  refine a.fails_ordered.bind fun x => b.fails_ordered.bind fun y => ?_
  dsimp only
  split <;> exact .ok _

theorem fails_permutations : FailsAsOperation (a.permutations b) := by
  unfold permutations
  split
  · repeat' split
    all_goals first
      | exact .error rfl
      | exact (FailsAsOperation.lift _).bind fun _ => (FailsAsOperation.lift _).bind fun _ => .ok _
  · exact .error rfl

theorem fails_combinations : FailsAsOperation (a.combinations b) := by
  unfold combinations
  split
  · repeat' split
    all_goals first
      | exact .error rfl
      | exact (FailsAsOperation.lift _).bind fun _ => (FailsAsOperation.lift _).bind fun _ =>
          (FailsAsOperation.lift _).bind fun _ => .ok _
  · exact .error rfl

theorem fails_commonFactor : FailsAsOperation (a.commonFactor b) := by
  unfold commonFactor
  split
  · exact .ok _
  · exact .error rfl

theorem fails_commonMultiple : FailsAsOperation (a.commonMultiple b) := by
  unfold commonMultiple
  split
  · exact .ok _
  · exact .error rfl

end Number

theorem Entries.fails_cross (xs ys : List Float) : FailsAsOperation (Entries.cross xs ys) := by
  unfold Entries.cross
  split
  · exact .ok _
  · exact .error rfl

namespace Matrix

theorem fails_mul (a b : Matrix) : FailsAsOperation (a.mul b) := by
  unfold mul
  split
  · exact .ok _
  · exact .error rfl

theorem fails_mulEntries (m : Matrix) (xs : List Float) : FailsAsOperation (m.mulEntries xs) := by
  unfold mulEntries
  split
  · exact .ok _
  · exact .error rfl

theorem fails_entriesMul (xs : List Float) (m : Matrix) : FailsAsOperation (entriesMul xs m) := by
  unfold entriesMul
  split
  · exact .ok _
  · exact .error rfl

theorem fails_determinant (m : Matrix) : FailsAsOperation m.determinant := by
  unfold determinant
  split
  · exact .error rfl
  · split
    case h_4 => exact .error rfl
    all_goals exact .ok _

end Matrix

theorem Factor.fails_cross (a b : Factor) : FailsAsOperation (a.cross b) := by
  unfold Factor.cross
  split
  · exact Entries.fails_cross _ _
  · exact .error rfl

/-! ### Operations without random choices -/

namespace Primitive

variable (p : Primitive) (args : List Value)

theorem fails_numbers (name : String) (items : List Value) : FailsAsOperation (numbers name items) :=
  .elim rfl .ok

theorem fails_reals (name : String) (items : List Value) : FailsAsOperation (reals name items) :=
  (fails_numbers name items).bind fun numbers => .mapM (fun a => a.fails_realAt name) numbers

theorem fails_applyTexts : FailsAsOperation (applyTexts p args) := by
  unfold applyTexts
  split
  case h_1 | h_2 => exact (FailsAsOperation.lift _).bind fun _ => .ok _
  case h_7 => exact .error rfl
  all_goals exact .ok _

theorem fails_sorted (items : List Value) : FailsAsOperation (sorted items) := by
  unfold sorted
  split
  · exact (fails_reals _ _).bind fun _ => .ok _
  · split
    · exact .ok _
    · exact .error rfl

theorem fails_applyLists : FailsAsOperation (applyLists p args) := by
  unfold applyLists
  split
  case h_1 | h_3 => exact (fails_numbers _ _).bind fun _ => .ok _
  case h_5 => exact (fails_sorted _).bind fun _ => .ok _
  case h_6 => exact fails_applyTexts _ _
  all_goals exact .ok _

theorem fails_applyRounding : FailsAsOperation (applyRounding p args) := by
  unfold applyRounding
  split
  case h_7 | h_8 => exact .lift _
  case h_9 => exact fails_applyLists _ _
  all_goals exact (FailsAsOperation.lift _).bind fun _ => .ok _

theorem fails_extremum {f : Number → Number → Outcome Number} (hf : ∀ a b, FailsAsOperation (f a b))
    (name : String) (items : List Value) : FailsAsOperation (extremum name f items) := by
  refine (fails_numbers name items).bind fun numbers => ?_
  cases numbers with
  | nil => exact .error rfl
  | cons first rest => exact (FailsAsOperation.foldlM hf rest first).bind fun _ => .ok _

theorem fails_commonMultipleOf (items : List Value) :
    FailsAsOperation (numbers "lcm" items >>= fun numbers =>
      Number.commonMultipleOf numbers >>= fun a => pure (Value.number a)) :=
  (fails_numbers _ _).bind fun numbers =>
    (FailsAsOperation.foldlM Number.fails_commonMultiple numbers _).bind fun _ => .ok _

theorem fails_applyNumbers : FailsAsOperation (applyNumbers p args) := by
  unfold applyNumbers
  split
  case h_11 => exact (Number.fails_mod _ _).bind fun _ => .ok _
  case h_13 => exact (Number.fails_max _ _).bind fun _ => .ok _
  case h_14 => exact (Number.fails_min _ _).bind fun _ => .ok _
  case h_15 => exact fails_extremum Number.fails_max _ _
  case h_16 => exact fails_extremum Number.fails_min _ _
  case h_17 => exact (Number.fails_permutations _ _).bind fun _ => .ok _
  case h_18 => exact (Number.fails_combinations _ _).bind fun _ => .ok _
  case h_19 => exact (Number.fails_commonFactor _ _).bind fun _ => .ok _
  case h_21 | h_22 => exact fails_commonMultipleOf _
  case h_25 => exact fails_applyRounding _ _
  all_goals first
    | exact .ok _
    | exact (FailsAsOperation.lift _).bind fun _ => .ok _

theorem fails_applySets : FailsAsOperation (applySets p args) := by
  unfold applySets
  split
  case h_6 => exact fails_applyNumbers _ _
  all_goals exact .ok _

theorem fails_matrixOf (rows : List (List Value)) : FailsAsOperation (matrixOf rows) :=
  (FailsAsOperation.mapM (fun _ => .elim rfl .ok) _).bind fun _ => .ok _

theorem fails_factor (v : Value) : FailsAsOperation (factor v) := by
  unfold factor
  split
  case h_3 => exact .error rfl
  all_goals exact .ok _

theorem fails_applyVectors : FailsAsOperation (applyVectors p args) := by
  unfold applyVectors
  split
  case h_1 | h_2 | h_5 | h_6 => exact (fails_reals _ _).bind fun _ => .ok _
  case h_3 | h_4 => exact .elim rfl fails_matrixOf
  case h_7 => exact (fails_factor _).bind fun _ => (fails_factor _).bind fun _ =>
    (FailsAsOperation.lift _).bind fun _ => .ok _
  case h_8 => exact (fails_factor _).bind fun _ => (fails_factor _).bind fun _ =>
    (Factor.fails_cross _ _).bind fun _ => .ok _
  case h_9 => exact (Matrix.fails_determinant _).bind fun _ => .ok _
  case h_12 => exact (FailsAsOperation.lift _).bind fun _ => .ok _
  case h_13 => exact fails_applySets _ _
  all_goals exact .ok _

theorem fails_position (index : Number) (size : Nat) : FailsAsOperation (position index size) := by
  refine (FailsAsOperation.lift _).bind fun i => ?_
  dsimp only
  generalize (if i < 0 then i + (size : Int) else i) = k
  split
  · exact .ok _
  · exact .error rfl

theorem fails_elementOf (collection : Value) (index : Number) :
    FailsAsOperation (elementOf collection index) := by
  unfold elementOf
  split
  case h_6 => exact .error rfl
  all_goals
    refine (fails_position _ _).bind fun i => ?_
    split
    · exact .ok _
    · exact .error rfl

theorem fails_sliceValue (collection : Value) (r : Range) :
    FailsAsOperation (sliceValue collection r) := by
  unfold sliceValue
  split
  case h_4 => exact .error rfl
  all_goals exact (FailsAsOperation.lift _).bind fun _ => .ok _

theorem fails_applyCollections : FailsAsOperation (applyCollections p args) := by
  unfold applyCollections
  split
  case h_16 => exact fails_elementOf _ _
  case h_17 => exact fails_sliceValue _ _
  case h_18 => exact fails_applyVectors _ _
  all_goals exact .ok _

theorem fails_applyLogic : FailsAsOperation (applyLogic p args) := by
  unfold applyLogic
  split
  case h_1 | h_2 | h_3 | h_4 => exact (Number.fails_compareWith _ _ _).bind fun _ => .ok _
  case h_13 => exact fails_applyCollections _ _
  all_goals exact .ok _

theorem fails_matrixPower (m : Matrix) (n : Number) : FailsAsOperation (matrixPower m n) := by
  unfold matrixPower
  split
  · exact .error rfl
  · split
    · exact .error rfl
    · exact (FailsAsOperation.lift _).bind fun _ => .ok _

theorem fails_applyArithmetic : FailsAsOperation (applyArithmetic p args) := by
  unfold applyArithmetic
  split
  case h_10 => exact (FailsAsOperation.lift _).bind fun _ => (FailsAsOperation.lift _).bind fun _ => .ok _
  case h_16 | h_17 | h_18 | h_19 => exact (Number.fails_realAt _ _).bind fun _ => .ok _
  case h_20 => exact (Matrix.fails_mul _ _).bind fun _ => .ok _
  case h_21 => exact (Matrix.fails_mulEntries _ _).bind fun _ => .ok _
  case h_22 => exact (Matrix.fails_entriesMul _ _).bind fun _ => .ok _
  case h_24 | h_25 => exact (Number.fails_realAt _ _).bind fun _ => .ok _
  case h_26 => exact (FailsAsOperation.lift _).bind fun _ => .ok _
  case h_27 => exact fails_matrixPower _ _
  case h_28 => exact fails_applyLogic _ _
  all_goals exact .ok _

end Primitive

/-! ### Random choices -/

namespace Action

variable {α : Type} {P : α → Prop} {Q : Failure → Prop}

/-- An action that fails only as an operation does. -/
abbrev FailsAsOperation (x : Action α) : Prop :=
  x.Ends (fun _ => True) fun e => e.isOfOperation = true

theorem FailsAsOperation.ofOutcome {x : Outcome α} (h : Outcome.FailsAsOperation x) :
    FailsAsOperation (Action.ofOutcome x) := by
  intro d
  cases x with
  | ok a => trivial
  | error e => exact h e rfl

theorem FailsAsOperation.ofFault (x : Except Fault α) : FailsAsOperation (Action.ofFault x) := by
  intro d
  cases x with
  | ok a => trivial
  | error f => exact rfl

theorem FailsAsOperation.fail {e : Error} (h : (Failure.error e).isOfOperation = true) :
    FailsAsOperation (Action.fail e : Action α) := fun _ => h

theorem FailsAsOperation.breakDown (f : Fault) : FailsAsOperation (Action.breakDown f : Action α) :=
  fun _ => rfl

theorem FailsAsOperation.pure (a : α) : FailsAsOperation (Pure.pure a) := ends_pure trivial

theorem FailsAsOperation.bind {β : Type} {x : Action α} {f : α → Action β} (hx : FailsAsOperation x)
    (hf : ∀ a, FailsAsOperation (f a)) : FailsAsOperation (x >>= f) :=
  ends_bind hx fun a _ => hf a

theorem fails_draw : FailsAsOperation draw := fun _ => trivial

theorem fails_below (n : Nat) : FailsAsOperation (below n) :=
  fails_draw.bind fun _ => (FailsAsOperation.ofFault _).bind fun _ => .pure _

theorem fails_choose (items : List α) : FailsAsOperation (choose items) := by
  refine (fails_below _).bind fun i => ?_
  cases items[i]? with
  | none => exact .breakDown _
  | some a => exact .pure a

theorem fails_shuffleFrom (n : Nat) (items : List α) : FailsAsOperation (shuffleFrom n items) := by
  induction n generalizing items with
  | zero => exact .pure items
  | succ n ih => exact (fails_below _).bind fun _ => ih _

end Action

namespace Primitive

theorem fails_chooseFrom (items : List Value) : (chooseFrom items).FailsAsOperation := by
  unfold chooseFrom
  split
  · exact .fail rfl
  · exact Action.fails_choose _

/-- An operation breaks down, or fails with an error about kinds or numbers. -/
theorem fails_apply (p : Primitive) (args : List Value) : (p.apply args).FailsAsOperation := by
  have hshuffle (items : List Value) :
      Action.FailsAsOperation (do return Value.list (← Action.shuffle items)) :=
    (Action.fails_shuffleFrom _ _).bind fun _ => .pure _
  unfold apply
  split
  · exact (Action.FailsAsOperation.ofFault _).bind fun _ => hshuffle _
  · exact hshuffle _
  · exact hshuffle _
  · split
    · exact (Action.fails_draw.bind fun _ => .pure _).bind fun _ => .pure _
    · exact fails_chooseFrom _
  · exact fails_chooseFrom _
  · exact fails_chooseFrom _
  · exact .ofOutcome (fails_applyArithmetic _ _)

end Primitive

end MathExpr
