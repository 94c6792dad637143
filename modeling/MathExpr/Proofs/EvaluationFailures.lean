import MathExpr.Proofs.UnboundNames

/-!
# What evaluation fails with

Whatever the scope is, and whichever functions it has, evaluation breaks down, or fails with an error about
the text of a slot, about a name without a value, about kinds or numbers, or because too many attempts have
been made (`Scope.fails_eval`). So an error about definitions, rules or sets of variables does not come from
an evaluation.

Each stage has its own failures: reading source text (`Tree.fails_ofSourceIn`), listing free names
(`FreeNames.fails_ofTree`), the operations, and the constructs, which fail as their arguments do or with
errors of their own (`Construct.fails_eval`).
-/

namespace MathExpr

namespace Failure

/-- Whether a failure is a breakdown, or an error about the text that is read. -/
def isOfReading : Failure → Bool
  | .error e => e.category == .lexical || e.category == .parsing
  | .fault _ => true

/-- Whether a failure may be one of an evaluation. -/
def isOfEvaluation (e : Failure) : Bool :=
  e.isOfReading || e.isOfOperation || match e with
    | .error (.undefinedVariable _) | .error .tooManyAttempts => true
    | _ => false

variable {e : Failure}

theorem isOfEvaluation_of_isOfReading (h : e.isOfReading = true) : e.isOfEvaluation = true := by
  simp [isOfEvaluation, h]

theorem isOfEvaluation_of_isOfOperation (h : e.isOfOperation = true) : e.isOfEvaluation = true := by
  simp [isOfEvaluation, h]

end Failure

/-! ### Results that fail in one way only -/

/-- What a result fails with has a property. -/
def FailsOnly {ε α : Type} (Q : ε → Prop) (x : Except ε α) : Prop :=
  ∀ e, x = .error e → Q e

namespace FailsOnly

variable {ε ε' α β : Type} {Q Q' : ε → Prop}

theorem ok (a : α) : FailsOnly Q (.ok a) := nofun

theorem error {e : ε} (h : Q e) : FailsOnly Q (.error e : Except ε α) := by
  rintro _ ⟨⟩
  exact h

theorem bind {x : Except ε α} {f : α → Except ε β} (hx : FailsOnly Q x) (hf : ∀ a, FailsOnly Q (f a)) :
    FailsOnly Q (x >>= f) := by
  cases x with
  | ok a => exact hf a
  | error e => exact error (hx e rfl)

theorem mapError {x : Except ε α} {f : ε → ε'} {R : ε' → Prop} (hx : FailsOnly Q x)
    (hf : ∀ e, Q e → R (f e)) : FailsOnly R (x.mapError f) := by
  cases x with
  | ok a => exact ok a
  | error e => exact error (hf e (hx e rfl))

theorem foldlM {f : β → α → Except ε β} (hf : ∀ b a, FailsOnly Q (f b a)) (items : List α) (b : β) :
    FailsOnly Q (items.foldlM f b) := by
  induction items generalizing b with
  | nil => exact ok b
  | cons a rest ih =>
      rw [List.foldlM_cons]
      exact (hf b a).bind ih

end FailsOnly

/-! ### Reading -/

/-- An outcome that fails only as reading does. -/
abbrev Outcome.FailsAsReading {α : Type} (x : Outcome α) : Prop :=
  FailsOnly (fun e => e.isOfReading = true) x

open Outcome (FailsAsReading)

theorem Lexeme.fails_scan (cs : List Char) : FailsOnly (fun e => e.category = .lexical) (scan cs) := by
  fun_induction scan cs with
  | case1 => exact .ok _
  | case2 _ _ _ ih => exact ih
  | case3 => exact .error rfl
  | case4 _ _ _ _ _ _ ih => exact ih.bind fun _ => .ok _

namespace Arrangement

variable (a : Arrangement)

/-- An error about the order of tokens. -/
abbrev IsMisplaced (e : Error) : Prop := e.category = .parsing

theorem fails_combine (head : Head) (label : String) (n : Nat) (output : List Tree) :
    FailsOnly IsMisplaced (combine head label n output) := by
  unfold combine
  split
  · exact .error rfl
  · exact .ok _

theorem fails_applyWhile (isReady : Operator → Bool) (stack : List Pending) (output : List Tree) :
    FailsOnly IsMisplaced (applyWhile isReady stack output) := by
  fun_induction applyWhile isReady stack output with
  | case1 _ _ _ _ ih => exact (fails_combine _ _ _ _).bind ih
  | case2 => exact .ok _
  | case3 => exact .ok _

theorem fails_operator (o : Operator) : FailsOnly IsMisplaced (a.operator o) := by
  unfold operator
  dsimp only
  split
  · exact .ok _
  · exact (fails_applyWhile _ _ _).bind fun _ => .ok _

theorem fails_comma : FailsOnly IsMisplaced a.comma := by
  refine (fails_applyWhile _ _ _).bind fun a => ?_
  split
  · exact .ok _
  · exact .ok _
  · exact .error rfl

/-- An error about the order of tokens is one of reading. -/
theorem failsAsReading_mapError {α : Type} {x : Except Error α} (hx : FailsOnly IsMisplaced x) :
    FailsAsReading (x.mapError .error) := by
  refine hx.mapError fun e he => ?_
  rw [Failure.isOfReading, he]
  rfl

theorem fails_closeSquare : FailsAsReading a.closeSquare := by
  refine (failsAsReading_mapError (fails_applyWhile _ _ _)).bind fun a => ?_
  split
  · dsimp only
    split
    · split
      · exact (failsAsReading_mapError (fails_combine _ _ _ _)).bind fun _ => .ok _
      · exact .error rfl
    · exact (failsAsReading_mapError (fails_combine _ _ _ _)).bind fun _ => .ok _
  · exact .error rfl
  · exact .error rfl

theorem fails_closeRound : FailsAsReading a.closeRound := by
  refine (failsAsReading_mapError (fails_applyWhile _ _ _)).bind fun a => ?_
  split
  · exact .ok _
  · exact (failsAsReading_mapError (fails_combine _ _ _ _)).bind fun _ => .ok _
  · exact .error rfl
  · exact .error rfl

theorem fails_step (previous : Option Token) (t : Token) : FailsAsReading (step previous a t) := by
  unfold step
  split
  case h_5 => exact failsAsReading_mapError (a.fails_operator _)
  case h_7 => split <;> exact .ok _
  case h_8 => exact a.fails_closeRound
  case h_10 => exact a.fails_closeSquare
  case h_11 => exact failsAsReading_mapError a.fails_comma
  all_goals exact .ok _

theorem fails_run (previous : Option Token) (ts : List Token) : FailsAsReading (run previous a ts) := by
  induction ts generalizing previous a with
  | nil => exact .ok _
  | cons t ts ih => exact (a.fails_step previous t).bind fun a' => ih a' (some t)

theorem fails_finish : FailsOnly IsMisplaced a.finish := by
  refine (fails_applyWhile _ _ _).bind fun a => ?_
  split
  · exact .error rfl
  · exact .error rfl
  · split
    · exact .ok _
    · exact .ok _
    · exact .error rfl

end Arrangement

/-- Source text is not read because it has no tokens there, or because these do not make up a tree. -/
theorem Tree.fails_ofSourceIn (isVariable : String → Bool) (source : String) :
    FailsAsReading (ofSourceIn isVariable source) := by
  unfold ofSourceIn
  dsimp only
  split
  · exact .ok _
  · refine FailsOnly.bind ?_ fun ts => ?_
    · refine FailsOnly.mapError ((Lexeme.fails_scan _).bind fun _ => .ok _) fun e he => ?_
      rw [Failure.isOfReading, he]
      rfl
    · exact (Arrangement.fails_run _ _ _).bind fun a => Arrangement.failsAsReading_mapError a.fails_finish

theorem Scope.fails_tree (s : Scope) (source : String) : FailsAsReading (s.tree source) :=
  Tree.fails_ofSourceIn _ source

namespace FreeNames

mutual

theorem fails_ofTreeWith {inText : List String → String → Outcome (List String)}
    (h : ∀ bound text, FailsAsReading (inText bound text)) (bound : List String) :
    (t : Tree) → FailsAsReading (ofTreeWith inText bound t)
  | .leaf v => by
      cases v with
      | text content safe latex =>
          unfold ofTreeWith
          split
          · exact .ok _
          · exact h bound content
      | _ => exact .ok _
  | .node head args => by
      unfold ofTreeWith
      exact fails_ofTreesWith h _ _ _ _ args

theorem fails_ofTreesWith {inText : List String → String → Outcome (List String)}
    (h : ∀ bound text, FailsAsReading (inText bound text)) (inner outer : List String) (count : Nat)
    (found : List String) : (ts : List Tree) →
      FailsAsReading (ofTreesWith inText inner outer count found ts)
  | [] => .ok _
  | t :: ts => by
      unfold ofTreesWith
      exact (fails_ofTreeWith h _ t).bind fun _ => fails_ofTreesWith h _ _ _ _ ts

end

variable {read : String → Outcome (Option Tree)}

theorem fails_ofTextWith (h : ∀ source, FailsAsReading (read source)) (depth : Nat) (bound : List String)
    (text : String) : FailsAsReading (ofTextWith read depth bound text) := by
  induction depth generalizing bound text with
  | zero => exact .ok _
  | succ depth ih =>
      unfold ofTextWith
      refine FailsOnly.foldlM (fun _ (slot : String × String) => (h slot.1).bind fun t => ?_) _ _
      cases t with
      | none => exact .ok _
      | some t => exact (fails_ofTreeWith ih bound t).bind fun _ => .ok _

/-- Free names are not listed because a slot cannot be read. -/
theorem fails_ofTree (h : ∀ source, FailsAsReading (read source)) (bound : List String) (t : Tree) :
    FailsAsReading (ofTree read bound t) :=
  fails_ofTreeWith (fun bound text => fails_ofTextWith h _ bound text) bound t

end FreeNames

/-! ### Actions -/

namespace Action

variable {α β : Type}

/-- An action that fails only as an evaluation does. -/
abbrev FailsAsEvaluation (x : Action α) : Prop :=
  x.Ends (fun _ => True) fun e => e.isOfEvaluation = true

namespace FailsAsEvaluation

theorem pure (a : α) : FailsAsEvaluation (Pure.pure a) := ends_pure trivial

theorem fail {e : Error} (h : (Failure.error e).isOfEvaluation = true) :
    FailsAsEvaluation (Action.fail e : Action α) := fun _ => h

theorem breakDown (f : Fault) : FailsAsEvaluation (Action.breakDown f : Action α) := fun _ => rfl

theorem of_operation {x : Action α} (h : x.FailsAsOperation) : x.FailsAsEvaluation :=
  h.imp (fun _ h => h) fun _ => Failure.isOfEvaluation_of_isOfOperation

theorem ofFault (x : Except Fault α) : FailsAsEvaluation (Action.ofFault x) :=
  of_operation (.ofFault x)

theorem ofOutcome {x : Outcome α} (h : FailsAsReading x) : FailsAsEvaluation (Action.ofOutcome x) := by
  intro d
  cases x with
  | ok a => trivial
  | error e => exact Failure.isOfEvaluation_of_isOfReading (h e rfl)

theorem bind {x : Action α} {f : α → Action β} (hx : FailsAsEvaluation x)
    (hf : ∀ a, FailsAsEvaluation (f a)) : FailsAsEvaluation (x >>= f) :=
  ends_bind hx fun a _ => hf a

theorem mapM {f : α → Action β} {items : List α} (hf : ∀ a ∈ items, FailsAsEvaluation (f a)) :
    FailsAsEvaluation (items.mapM f) := by
  induction items with
  | nil => exact .pure []
  | cons a rest ih =>
      rw [List.mapM_cons]
      refine (hf a List.mem_cons_self).bind fun b => ?_
      exact (ih fun c hc => hf c (List.mem_cons_of_mem a hc)).bind fun bs => .pure (b :: bs)

theorem foldlM {f : β → α → Action β} (hf : ∀ b a, FailsAsEvaluation (f b a)) (items : List α) (b : β) :
    FailsAsEvaluation (items.foldlM f b) := by
  induction items generalizing b with
  | nil => exact .pure b
  | cons a rest ih =>
      rw [List.foldlM_cons]
      exact (hf b a).bind ih

end FailsAsEvaluation

end Action

open MathExpr.Action (FailsAsEvaluation)

/-! ### Constructs -/

/-- An argument that fails in any scope only as an evaluation does, and its parts alike. -/
structure Suspended.Fails (a : Suspended) : Prop where
  value : ∀ s, (a.value s).FailsAsEvaluation
  parts : ∀ part ∈ a.parts, ∀ s, (part s).FailsAsEvaluation

namespace Construct

variable {a b c : Suspended} (s : Scope)

theorem fails_wrongCount (construct : Construct) (count : Nat) :
    (wrongCount construct count).FailsAsEvaluation := .fail rfl

theorem fails_evalConditional (ha : a.Fails) (hb : b.Fails) (hc : c.Fails) :
    (evalConditional s a b c).FailsAsEvaluation := by
  refine (ha.value s).bind fun v => ?_
  split
  · split
    · exact hb.value s
    · exact hc.value s
  · exact .fail rfl

theorem fails_evalCases : (args : List Suspended) → (∀ a ∈ args, a.Fails) →
    (evalCases s args).FailsAsEvaluation
  | [], _ => .fail rfl
  | [a], h => (h a List.mem_cons_self).value s
  | a :: b :: rest, h => by
      have hb := List.mem_cons_of_mem a (List.mem_cons_self (a := b) (l := rest))
      have hrest := fails_evalCases rest fun c hc => h c (List.mem_cons_of_mem a (List.mem_cons_of_mem b hc))
      unfold evalCases
      refine ((h a List.mem_cons_self).value s).bind fun v => ?_
      split
      · split
        · exact (h b hb).value s
        · exact hrest
      · exact .fail rfl

theorem fails_evalRepetition (ha : a.Fails) (hb : b.Fails) :
    (evalRepetition s a b).FailsAsEvaluation := by
  refine (hb.value s).bind fun v => ?_
  split
  · exact (FailsAsEvaluation.ofFault _).bind fun n =>
      (FailsAsEvaluation.mapM fun _ _ => ha.value s).bind fun _ => .pure _
  · exact .fail rfl

theorem fails_elements (v : Value) : (elements v).FailsAsEvaluation := by
  unfold elements
  split
  case h_5 => exact .fail rfl
  all_goals exact .pure _

theorem fails_evalMap (ha : a.Fails) (hc : c.Fails) : (evalMap s a b c).FailsAsEvaluation := by
  refine (hc.value s).bind fun v => (fails_elements v).bind fun items => ?_
  split
  · exact .fail rfl
  · exact (FailsAsEvaluation.mapM fun _ _ => ha.value _).bind fun _ => .pure _

theorem fails_kindOfUnbound (kind : String) (t : Tree) : FailsAsReading (kindOfUnbound s kind t) := by
  unfold kindOfUnbound
  have hfree : FailsAsReading (do
      let free ← FreeNames.ofTree s.tree [] t
      return if free.all s.binds then none else some (t.kind == kind)) :=
    (FreeNames.fails_ofTree s.fails_tree [] t).bind fun _ => .ok _
  split
  · split
    · exact .ok _
    · exact hfree
  · exact hfree

theorem fails_evalIsa (ha : a.Fails) (hb : b.Fails) : (evalIsa s a b).FailsAsEvaluation := by
  refine (hb.value s).bind fun v => ?_
  split
  · refine (FailsAsEvaluation.ofOutcome (fails_kindOfUnbound s _ _)).bind fun decided => ?_
    split
    · exact .pure _
    · exact (ha.value s).bind fun _ => .pure _
  · exact .fail rfl

/-! #### Attempts -/

theorem fails_attempts {α : Type} {attempt : Action (Option α)} (h : attempt.FailsAsEvaluation) (n : Nat) :
    (attempts attempt n).FailsAsEvaluation := by
  induction n with
  | zero => exact .pure _
  | succ n ih =>
      refine h.bind fun o => ?_
      cases o with
      | some a => exact .pure _
      | none => exact ih

theorem fails_define (definitions : List (String × (Scope → Action Value)))
    (h : ∀ e ∈ definitions, ∀ s, (e.2 s).FailsAsEvaluation) : (define s definitions).FailsAsEvaluation := by
  induction definitions generalizing s with
  | nil => exact .pure _
  | cons e rest ih =>
      exact (h e List.mem_cons_self s).bind fun v =>
        ih (s.bind e.1 v) fun e' he' => h e' (List.mem_cons_of_mem e he')

theorem fails_meets (requirements : List (Scope → Action Value))
    (h : ∀ requirement ∈ requirements, ∀ s, (requirement s).FailsAsEvaluation) :
    (meets s requirements).FailsAsEvaluation := by
  induction requirements with
  | nil => exact .pure _
  | cons requirement rest ih =>
      refine (h requirement List.mem_cons_self s).bind fun v => ?_
      split
      · split
        · exact ih fun r hr => h r (List.mem_cons_of_mem requirement hr)
        · exact .pure _
      · exact .fail rfl

theorem fails_attemptCount (v : Value) : (attemptCount v).FailsAsEvaluation := by
  unfold attemptCount
  split
  · exact .ofFault _
  · exact .pure _
  · cases Real.readInt _ with
    | none => exact .breakDown _
    | some n => exact .pure n
  · exact .breakDown _
  · exact .breakDown _

theorem fails_evalSatisfy {count : Action Int} (hb : b.Fails) (hc : c.Fails)
    (hcount : count.FailsAsEvaluation) : (evalSatisfy s a b c count).FailsAsEvaluation := by
  unfold evalSatisfy
  split
  · exact .fail rfl
  · dsimp only
    split
    · exact .fail rfl
    · refine hcount.bind fun n => (fails_attempts ?_ n.toNat).bind fun o => ?_
      · have hdefine := fails_define s.child (a.tree.boundKeys.zip b.parts)
          fun e he => hb.parts e.2 (List.of_mem_zip he).2
        refine hdefine.bind fun inner => (fails_meets inner c.parts hc.parts).bind fun met => ?_
        cases met <;> exact .pure _
      · cases o with
        | none => exact .fail rfl
        | some v => exact .pure v

/-- A construct fails as its arguments do, or with an error of its own. -/
theorem fails_eval (construct : Construct) (args : List Suspended) (h : ∀ a ∈ args, a.Fails) :
    (construct.eval s args).FailsAsEvaluation := by
  unfold eval
  split
  case h_8 => exact fails_wrongCount _ _
  case h_2 => exact fails_evalCases s _ h
  all_goals simp only [List.forall_mem_cons] at h
  · exact fails_evalConditional s h.1 h.2.1 h.2.2.1
  · exact fails_evalRepetition s h.1 h.2.1
  · exact fails_evalMap s h.1 h.2.2.1
  · exact fails_evalIsa s h.1 h.2.1
  · exact fails_evalSatisfy s h.2.1 h.2.2.1 (.pure _)
  · exact fails_evalSatisfy s h.2.1 h.2.2.1 ((h.2.2.2.1.value s).bind fun v => fails_attemptCount v)

end Construct

/-! ### Trees -/

/-- An evaluator that fails only as an evaluation does. -/
abbrev Evaluator.Fails (deeper : Evaluator) : Prop :=
  ∀ s t, (deeper s t).FailsAsEvaluation

namespace Evaluate

variable {deeper : Evaluator}

section

variable (hdeeper : deeper.Fails) (s : Scope)

include hdeeper

theorem fails_fillSlots (content : String) : (fillSlots deeper s content).FailsAsEvaluation := by
  refine FailsAsEvaluation.foldlM (fun filled slot => ?_) _ _
  refine (FailsAsEvaluation.ofOutcome (s.fails_tree slot.1)).bind fun t => ?_
  cases t with
  | none => exact .pure _
  | some t => exact (hdeeper s t).bind fun v => (FailsAsEvaluation.ofFault _).bind fun _ => .pure _

theorem fails_text (content : String) (safe latex : Bool) :
    (text deeper s content safe latex).FailsAsEvaluation := by
  unfold text
  dsimp only
  split
  · exact (fails_fillSlots hdeeper s content).bind fun _ => .pure _
  · exact .pure _

theorem fails_custom (f : Signature) (parameters : List String) (result : String) (t : Tree)
    (args : List Value) : (custom deeper s f parameters result t args).FailsAsEvaluation := by
  refine (hdeeper _ t).bind fun v => ?_
  split
  · exact .pure _
  · exact .fail rfl

theorem fails_invokeUnevaluated (f : Signature) (count : Nat) :
    (invokeUnevaluated deeper s f count).FailsAsEvaluation := by
  unfold invokeUnevaluated
  split
  · split
    · exact fails_custom hdeeper s f _ _ _ _
    · exact .breakDown _
  · exact .breakDown _

theorem failsAsEvaluation_dispatch (h : Head) (name : String) (args : List Value) :
    (dispatch deeper s h name args).FailsAsEvaluation := by
  unfold dispatch
  split
  · exact .of_operation (.fail (isOfOperation_unknown h name))
  · split
    · unfold invoke
      split
      · exact .of_operation (Primitive.fails_apply _ _)
      · exact .breakDown _
      · exact fails_custom hdeeper s _ _ _ _ _
    · exact .of_operation (.fail (isOfOperation_noFit name args))

end

mutual

theorem fails_tree (hdeeper : deeper.Fails) (allowUnbound : Bool) : (t : Tree) → (s : Scope) →
    (tree deeper s allowUnbound t).FailsAsEvaluation
  | .leaf v, s => by
      unfold tree
      split
      · exact fails_text hdeeper s _ _ _
      · split
        · exact .pure _
        · split
          · exact .pure _
          · exact .fail rfl
      · exact .pure _
      · rename_i heq
        cases heq
  | .node h args, s => by
      unfold tree
      split
      · exact (fails_trees hdeeper allowUnbound args s).bind fun _ => .pure _
      · split
        · exact (fails_trees hdeeper allowUnbound args s).bind fun vs =>
            failsAsEvaluation_dispatch hdeeper s h _ vs
        · split
          · exact .fail rfl
          · split
            · exact Construct.fails_eval s _ _ (fails_suspend hdeeper args)
            · exact fails_invokeUnevaluated hdeeper s _ _

theorem fails_trees (hdeeper : deeper.Fails) (allowUnbound : Bool) : (ts : List Tree) → (s : Scope) →
    (trees deeper s allowUnbound ts).FailsAsEvaluation
  | [], _ => .pure _
  | t :: ts, s => by
      unfold trees
      exact (fails_tree hdeeper allowUnbound t s).bind fun _ =>
        (fails_trees hdeeper allowUnbound ts s).bind fun _ => .pure _

theorem fails_suspend (hdeeper : deeper.Fails) : (ts : List Tree) → ∀ a ∈ suspend deeper ts, a.Fails
  | [], _, ha => by cases ha
  | t :: ts, a, ha => by
      rw [suspend] at ha
      rcases List.mem_cons.1 ha with rfl | ha
      · exact ⟨fails_tree hdeeper false t, fails_parts hdeeper t⟩
      · exact fails_suspend hdeeper ts a ha

theorem fails_parts (hdeeper : deeper.Fails) : (t : Tree) →
    ∀ part ∈ parts deeper t, ∀ s, (part s).FailsAsEvaluation
  | .leaf _, _, hpart => by cases hpart
  | .node _ args, part, hpart => fails_values hdeeper args part hpart

theorem fails_values (hdeeper : deeper.Fails) : (ts : List Tree) →
    ∀ value ∈ values deeper ts, ∀ s, (value s).FailsAsEvaluation
  | [], _, hvalue => by cases hvalue
  | t :: ts, value, hvalue => by
      rw [values] at hvalue
      rcases List.mem_cons.1 hvalue with rfl | hvalue
      · exact fails_tree hdeeper false t
      · exact fails_values hdeeper ts value hvalue

end

theorem fails_atLevel (n : Nat) : (atLevel n).Fails := by
  induction n with
  | zero => exact fun _ _ => .breakDown _
  | succ n ih => exact fun s t => fails_tree ih false t s

end Evaluate

/-- Evaluation breaks down, or fails with an error about the text of a slot, a name without a value, kinds or
numbers, or too many attempts. -/
theorem Scope.fails_eval (s : Scope) (t : Tree) : (s.eval t).FailsAsEvaluation :=
  Evaluate.fails_tree (Evaluate.fails_atLevel _) false t s

end MathExpr
