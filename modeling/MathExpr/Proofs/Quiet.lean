import MathExpr.Proofs.Evaluation
import MathExpr.Proofs.Trees
import MathExpr.Rule.Apply

/-!
# Evaluation without random functions

A tree *applies* (`Tree.Applies`) the functions in it, those in the slots of its texts, and those in the
bodies of the custom functions that it applies. It is *quiet* if none of them makes random choices: then
no random number is drawn when it is evaluated (`Tree.IsQuiet.drawsNothing_eval`).

A scope is quiet if none of its signatures stands for a random choice. All trees are quiet in it, so that
no rule that is applied in a quiet scope draws any random number.
-/

namespace MathExpr

open MathExpr.Action (DrawsNothing)

/-- The operations that make random choices. -/
def Primitive.isRandom : Primitive → Bool
  | deal | shuffle | randomInRange | randomOfList | random => true
  | _ => false

theorem Primitive.drawsNothing_apply {p : Primitive} (h : p.isRandom = false)
    (args : List Value) : DrawsNothing (p.apply args) := by
  unfold Primitive.apply
  split
  case h_7 => exact .ofOutcome _
  all_goals cases h

/-- Whether a signature stands for a random choice. -/
def Signature.isRandom (f : Signature) : Bool :=
  match f.body with
  | .builtin p => p.isRandom
  | _ => false

namespace Scope

/-- Under the name of a function there is a random choice. -/
def MakesChoices (s : Scope) (name : String) : Prop :=
  ∃ f ∈ s.signatures name, f.isRandom = true

/-- No signature of a scope makes random choices. -/
abbrev IsQuiet (s : Scope) : Prop :=
  s.EachSignature fun _ f => ∀ p, f.body = .builtin p → p.isRandom = false

/-- Two scopes have the same signatures under each name, if not in the same order. -/
def SharesFunctions (s s' : Scope) : Prop :=
  ∀ name f, f ∈ s'.signatures name ↔ f ∈ s.signatures name

namespace SharesFunctions

variable {s s' : Scope}

theorem refl (s : Scope) : s.SharesFunctions s := fun _ _ => Iff.rfl

theorem child (h : s.SharesFunctions s') : s.SharesFunctions s'.child :=
  fun name f => mem_signatures_child.trans (h name f)

theorem bind (h : s.SharesFunctions s') (name : String) (v : Value) : s.SharesFunctions (s'.bind name v) := h

theorem bindAll (h : s.SharesFunctions s') (bindings : List (String × Value)) :
    s.SharesFunctions (s'.bindAll bindings) := by
  induction bindings generalizing s' with
  | nil => exact h
  | cons b rest ih => exact ih (h.bind b.1 b.2)

theorem loopScope (h : s.SharesFunctions s') (v : Value) (names : Construct.LoopNames) :
    s.SharesFunctions (Construct.loopScope s' v names) := by
  cases names with
  | single name => exact h.child.bind name v
  | several names => exact h.child.bindAll _

theorem callScope (h : s.SharesFunctions s') (parameters : List String) (args : List Value) :
    s.SharesFunctions (Evaluate.callScope s' parameters args) := h.child

end SharesFunctions

end Scope

/-! ### Quiet trees -/

namespace Tree

/-- The names under which a tree looks up functions and operators, in any scope with the functions of a
given one. -/
inductive Applies (s : Scope) : Tree → String → Prop
  | head {h : Head} {args : List Tree} {name : String} (hname : h.name? = some name) :
      Applies s (.node h args) name
  | argument {h : Head} {args : List Tree} {t : Tree} {name : String} (ht : t ∈ args)
      (happlies : Applies s t name) : Applies s (.node h args) name
  | slot {content : String} {latex : Bool} {slot : String × String} {s' : Scope} {t : Tree}
      {name : String} (hslot : slot ∈ (Text.Template.ofText content).slots) (hs : s.SharesFunctions s')
      (hread : s'.tree slot.1 = .ok (some t)) (happlies : Applies s t name) :
      Applies s (.leaf (.text content false latex)) name
  | body {h : Head} {args : List Tree} {f : Signature} {called name : String} {parameters : List String}
      {result : String} {t : Tree} (hcalled : h.name? = some called) (hf : f ∈ s.signatures called)
      (hbody : f.body = .custom parameters result t) (happlies : Applies s t name) :
      Applies s (.node h args) name

/-- A tree that applies no function with a random choice. -/
def IsQuiet (s : Scope) (t : Tree) : Prop := ∀ name, t.Applies s name → ¬s.MakesChoices name

variable {s : Scope}

theorem IsQuiet.argument {h : Head} {args : List Tree} (hnode : (node h args).IsQuiet s) {t : Tree}
    (ht : t ∈ args) : t.IsQuiet s :=
  fun name happlies => hnode name (.argument ht happlies)

/-- All trees are quiet in a quiet scope. -/
theorem isQuiet_of_isQuiet (hs : s.IsQuiet) (t : Tree) : t.IsQuiet s := by
  rintro name - ⟨f, hf, hrandom⟩
  unfold Signature.isRandom at hrandom
  split at hrandom
  · rename_i p hp
    rw [hs name f hf p hp] at hrandom
    cases hrandom
  · cases hrandom

end Tree

/-- An evaluator that draws nothing for quiet trees. -/
def Evaluator.IsQuiet (s : Scope) (deeper : Evaluator) : Prop :=
  ∀ s', s.SharesFunctions s' → ∀ t : Tree, t.IsQuiet s → DrawsNothing (deeper s' t)

/-! ### Constructs -/

/-- An argument that draws nothing in any scope with the functions of a given one, nor do its parts. -/
structure Suspended.IsQuiet (s : Scope) (a : Suspended) : Prop where
  value : ∀ s', s.SharesFunctions s' → DrawsNothing (a.value s')
  parts : ∀ part ∈ a.parts, ∀ s', s.SharesFunctions s' → DrawsNothing (part s')

namespace Construct

variable {s₀ s : Scope}

theorem drawsNothing_evalConditional (hs : s₀.SharesFunctions s) {a b c : Suspended} (ha : a.IsQuiet s₀)
    (hb : b.IsQuiet s₀) (hc : c.IsQuiet s₀) : DrawsNothing (evalConditional s a b c) := by
  refine (ha.value s hs).bind fun v => ?_
  split
  · split
    · exact hb.value s hs
    · exact hc.value s hs
  · exact .fail _

theorem drawsNothing_evalCases (hs : s₀.SharesFunctions s) :
    (args : List Suspended) → (∀ a ∈ args, a.IsQuiet s₀) → DrawsNothing (evalCases s args)
  | [], _ => .fail _
  | [a], h => (h a List.mem_cons_self).value s hs
  | a :: b :: rest, h => by
      have hb := h b (List.mem_cons_of_mem a List.mem_cons_self)
      unfold evalCases
      refine ((h a List.mem_cons_self).value s hs).bind fun v => ?_
      split
      · split
        · exact hb.value s hs
        · exact drawsNothing_evalCases hs rest
            fun c hc => h c (List.mem_cons_of_mem a (List.mem_cons_of_mem b hc))
      · exact .fail _

theorem drawsNothing_evalRepetition (hs : s₀.SharesFunctions s) {a b : Suspended} (ha : a.IsQuiet s₀)
    (hb : b.IsQuiet s₀) : DrawsNothing (evalRepetition s a b) := by
  refine (hb.value s hs).bind fun v => ?_
  split
  · refine (DrawsNothing.ofOutcome _).bind fun n => ?_
    exact (DrawsNothing.mapM fun _ _ => ha.value s hs).bind fun vs => .pure _
  · exact .fail _

theorem drawsNothing_elements (v : Value) : DrawsNothing (elements v) := by
  unfold elements
  split <;> first | exact .pure _ | exact .fail _

theorem drawsNothing_evalMap (hs : s₀.SharesFunctions s) {a b c : Suspended} (ha : a.IsQuiet s₀)
    (hc : c.IsQuiet s₀) : DrawsNothing (evalMap s a b c) := by
  refine (hc.value s hs).bind fun v => ?_
  refine (drawsNothing_elements v).bind fun items => ?_
  cases loopNames? b.tree with
  | none => exact .fail _
  | some names =>
      refine (DrawsNothing.mapM fun v _ => ?_).bind fun vs => .pure _
      exact ha.value _ (hs.loopScope v names)

theorem drawsNothing_evalIsa (hs : s₀.SharesFunctions s) {a b : Suspended} (ha : a.IsQuiet s₀)
    (hb : b.IsQuiet s₀) : DrawsNothing (evalIsa s a b) := by
  refine (hb.value s hs).bind fun v => ?_
  split
  · refine (DrawsNothing.ofOutcome _).bind fun o => ?_
    cases o with
    | none => exact (ha.value s hs).bind fun v => .pure _
    | some answer => exact .pure _
  · exact .fail _

theorem drawsNothing_define {definitions : List (String × (Scope → Action Value))}
    (h : ∀ e ∈ definitions, ∀ s : Scope, s₀.SharesFunctions s → DrawsNothing (e.2 s)) (hs : s₀.SharesFunctions s) :
    DrawsNothing (define s definitions) := by
  induction definitions generalizing s with
  | nil => exact .pure s
  | cons e rest ih =>
      refine (h e List.mem_cons_self s hs).bind fun v => ?_
      exact ih (fun e' he' => h e' (List.mem_cons_of_mem e he')) (hs.bind e.1 v)

/-- The scope that definitions lead to has the same functions. -/
theorem returns_sharesFunctions_define {definitions : List (String × (Scope → Action Value))}
    (hs : s₀.SharesFunctions s) :
    (define s definitions).Returns s₀.SharesFunctions := by
  induction definitions generalizing s with
  | nil => exact Action.returns_pure hs
  | cons e rest ih => exact Action.returns_bind (Action.returns_true _) fun v _ => ih (hs.bind e.1 v)

theorem drawsNothing_meets {requirements : List (Scope → Action Value)}
    (h : ∀ r ∈ requirements, ∀ s : Scope, s₀.SharesFunctions s → DrawsNothing (r s)) (hs : s₀.SharesFunctions s) :
    DrawsNothing (meets s requirements) := by
  induction requirements with
  | nil => exact .pure true
  | cons r rest ih =>
      refine (h r List.mem_cons_self s hs).bind fun v => ?_
      split
      · split
        · exact ih fun q hq => h q (List.mem_cons_of_mem r hq)
        · exact .pure false
      · exact .fail _

theorem drawsNothing_attempts {α : Type} {x : Action (Option α)} (h : DrawsNothing x) :
    (n : Nat) → DrawsNothing (attempts x n)
  | 0 => .pure none
  | n + 1 => by
      refine h.bind fun o => ?_
      cases o with
      | none => exact drawsNothing_attempts h n
      | some a => exact .pure (some a)

theorem drawsNothing_evalSatisfy (hs : s₀.SharesFunctions s) {a b c : Suspended} (hb : b.IsQuiet s₀)
    (hc : c.IsQuiet s₀) {count : Action Int} (hcount : DrawsNothing count) :
    DrawsNothing (evalSatisfy s a b c count) := by
  unfold evalSatisfy
  split
  · exact .fail _
  · show DrawsNothing (if _ then _ else _)
    split
    · exact .fail _
    · refine hcount.bind fun n => ?_
      refine (drawsNothing_attempts ?_ n.toNat).bind fun o => ?_
      · refine DrawsNothing.bind_of_returns (drawsNothing_define ?_ hs.child)
          (returns_sharesFunctions_define hs.child) fun inner hinner => ?_
        · intro e he
          exact hb.parts e.2 (List.of_mem_zip he).2
        · refine (drawsNothing_meets hc.parts hinner).bind fun met => ?_
          split <;> exact .pure _
      · cases o with
        | none => exact .fail _
        | some v => exact .pure v

theorem drawsNothing_attemptCount (v : Value) : DrawsNothing (attemptCount v) := by
  unfold attemptCount
  split
  · exact .ofOutcome _
  · exact .pure _
  · rename_i content _ _
    cases Real.readInt content with
    | none => exact .breakDown _
    | some n => exact .pure n
  · exact .breakDown _
  · exact .breakDown _

theorem drawsNothing_eval (hs : s₀.SharesFunctions s) (c : Construct) {args : List Suspended}
    (h : ∀ a ∈ args, a.IsQuiet s₀) : DrawsNothing (c.eval s args) := by
  unfold Construct.eval
  split
  · exact drawsNothing_evalConditional hs (h _ (by simp)) (h _ (by simp)) (h _ (by simp))
  · exact drawsNothing_evalCases hs _ h
  · exact drawsNothing_evalRepetition hs (h _ (by simp)) (h _ (by simp))
  · exact drawsNothing_evalMap hs (h _ (by simp)) (h _ (by simp))
  · exact drawsNothing_evalIsa hs (h _ (by simp)) (h _ (by simp))
  · exact drawsNothing_evalSatisfy hs (h _ (by simp)) (h _ (by simp)) (.pure _)
  · refine drawsNothing_evalSatisfy hs (h _ (by simp)) (h _ (by simp)) ?_
    exact ((h _ (by simp)).value s hs).bind fun v => drawsNothing_attemptCount v
  · exact .fail _

end Construct

/-! ### Trees -/

namespace Evaluate

variable {deeper : Evaluator} {s₀ s : Scope}

theorem drawsNothing_text (hdeeper : deeper.IsQuiet s₀) (hs : s₀.SharesFunctions s) {content : String}
    {safe latex : Bool} (ht : (Tree.leaf (.text content safe latex)).IsQuiet s₀) :
    DrawsNothing (text deeper s content safe latex) := by
  unfold text
  split
  · rename_i hslots
    cases safe with
    | true => cases hslots
    | false =>
        refine DrawsNothing.bind ?_ fun filled => .pure _
        refine DrawsNothing.foldlM (fun filled slot hslot => ?_) _
        cases hread : s.tree slot.1 with
        | error e => exact ⟨.error e, fun _ => rfl⟩
        | ok o =>
            cases o with
            | none => exact .pure _
            | some t =>
                have hquiet : t.IsQuiet s₀ := fun name happlies => ht name (.slot hslot hs hread happlies)
                refine (hdeeper s hs t hquiet).bind fun v => ?_
                exact (DrawsNothing.ofOutcome _).bind fun piece => .pure _
  · exact .pure _

theorem drawsNothing_custom (hdeeper : deeper.IsQuiet s₀) (hs : s₀.SharesFunctions s) (f : Signature)
    (parameters : List String) (result : String) {t : Tree} (ht : t.IsQuiet s₀) (args : List Value) :
    DrawsNothing (custom deeper s f parameters result t args) := by
  refine (hdeeper _ (hs.callScope parameters args) t ht).bind fun v => ?_
  split
  · exact .pure v
  · exact .fail _

/-- What is done with the signatures under the name of a quiet node. -/
theorem drawsNothing_invoke (hdeeper : deeper.IsQuiet s₀) (hs : s₀.SharesFunctions s) {h : Head}
    {ts : List Tree} (ht : (Tree.node h ts).IsQuiet s₀) {name : String} (hname : h.name? = some name)
    {f : Signature} (hf : f ∈ s.signatures name) :
    (∀ args, DrawsNothing (invoke deeper s f args)) ∧
      ∀ count, DrawsNothing (invokeUnevaluated deeper s f count) := by
  have hf := (hs name f).1 hf
  unfold invoke invokeUnevaluated
  cases hbody : f.body with
  | builtin p =>
      refine ⟨fun args => Primitive.drawsNothing_apply ?_ args, fun count => .breakDown _⟩
      refine Bool.eq_false_iff.2 fun hrandom => ht name (.head hname) ⟨f, hf, ?_⟩
      unfold Signature.isRandom
      rwa [hbody]
  | construct c => exact ⟨fun args => .breakDown _, fun count => .breakDown _⟩
  | custom parameters result t =>
      have hquiet : t.IsQuiet s₀ := fun n happlies => ht n (.body hname hf hbody happlies)
      refine ⟨fun args => drawsNothing_custom hdeeper hs f parameters result hquiet args, fun count => ?_⟩
      dsimp only
      split
      · exact drawsNothing_custom hdeeper hs f parameters result hquiet []
      · exact .breakDown _

theorem drawsNothing_dispatch (hdeeper : deeper.IsQuiet s₀) (hs : s₀.SharesFunctions s) {h : Head}
    {ts : List Tree} (ht : (Tree.node h ts).IsQuiet s₀) {name : String} (hname : h.name? = some name)
    (args : List Value) : DrawsNothing (dispatch deeper s h name args) := by
  unfold dispatch
  split
  · exact .fail _
  · split
    · rename_i f hfind
      exact (drawsNothing_invoke hdeeper hs ht hname (List.mem_of_find?_eq_some hfind)).1 args
    · exact .fail _

/-- Evaluating a quiet tree draws nothing, and it may stand as an argument of a construct. -/
theorem isQuiet_suspended (hdeeper : deeper.IsQuiet s₀) {t : Tree} (ht : t.IsQuiet s₀) :
    (∀ s, s₀.SharesFunctions s → ∀ allowUnbound, DrawsNothing (tree deeper s allowUnbound t)) ∧
      (suspended deeper t).IsQuiet s₀ := by
  induction t using Tree.ind with
  | leaf v =>
      have hleaf : ∀ s, s₀.SharesFunctions s → ∀ allowUnbound,
          DrawsNothing (tree deeper s allowUnbound (.leaf v)) := by
        intro s hs allowUnbound
        cases v with
        | text content safe latex => exact drawsNothing_text hdeeper hs ht
        | name n hints =>
            unfold tree
            split
            · exact .pure _
            · split
              · exact .pure _
              · exact .fail _
        | _ => exact .pure _
      exact ⟨hleaf, fun s hs => hleaf s hs false, fun part hpart => by cases hpart⟩
  | node h args ih =>
      have ih (t : Tree) (hmem : t ∈ args) := ih t hmem (ht.argument hmem)
      have hnode : ∀ s, s₀.SharesFunctions s → ∀ allowUnbound,
          DrawsNothing (tree deeper s allowUnbound (.node h args)) := by
        intro s hs allowUnbound
        have htrees : DrawsNothing (trees deeper s allowUnbound args) := by
          rw [trees_eq_mapM]
          exact DrawsNothing.mapM fun t ht => (ih t ht).1 s hs allowUnbound
        unfold tree
        split
        · exact htrees.bind fun vs => .pure _
        · rename_i name hname
          split
          · exact htrees.bind fun vs => drawsNothing_dispatch hdeeper hs ht hname vs
          · split
            · exact .fail _
            · rename_i f fs hsignatures
              split
              · rw [suspend_eq_map]
                refine Construct.drawsNothing_eval hs _ fun a ha => ?_
                obtain ⟨t, ht, rfl⟩ := List.mem_map.1 ha
                exact (ih t ht).2
              · have hf : f ∈ s.signatures name := by
                  rw [hsignatures]
                  exact List.mem_cons_self
                exact (drawsNothing_invoke hdeeper hs ht hname hf).2 _
      refine ⟨hnode, fun s hs => hnode s hs false, fun part hpart s hs => ?_⟩
      change part ∈ values deeper args at hpart
      rw [values_eq_map] at hpart
      obtain ⟨t, ht, rfl⟩ := List.mem_map.1 hpart
      exact (ih t ht).1 s hs false

theorem isQuiet_atLevel : (n : Nat) → (atLevel n).IsQuiet s₀
  | 0 => fun _ _ _ _ => .breakDown _
  | n + 1 => fun s hs _ ht => (isQuiet_suspended (isQuiet_atLevel n) ht).1 s hs false

end Evaluate

/-- No random numbers are drawn when a quiet tree is evaluated. -/
theorem Tree.IsQuiet.drawsNothing_eval {s s' : Scope} {t : Tree} (ht : t.IsQuiet s)
    (hs : s.SharesFunctions s') : DrawsNothing (s'.eval t) :=
  (Evaluate.isQuiet_suspended (Evaluate.isQuiet_atLevel _) ht).1 s' hs false

/-- Nothing that is evaluated in a quiet scope draws random numbers. -/
theorem Scope.IsQuiet.drawsNothing_eval {s : Scope} (hs : s.IsQuiet) (t : Tree) :
    DrawsNothing (s.eval t) :=
  (Tree.isQuiet_of_isQuiet hs t).drawsNothing_eval (.refl s)

/-! ### Rules -/

namespace Tree

theorem evalPartsOf_eq_mapM (s : Scope) (ts : List Tree) :
    evalPartsOf s ts = ts.mapM (evalParts s) := by
  induction ts with
  | nil => rfl
  | cons t ts ih => rw [evalPartsOf, ih, List.mapM_cons]

theorem drawsNothing_evalParts {s : Scope} (hs : s.IsQuiet) (t : Tree) :
    DrawsNothing (t.evalParts s) := by
  induction t using Tree.ind with
  | leaf v => exact .pure _
  | node h args ih =>
      unfold evalParts
      split
      · exact .pure _
      · exact (hs.drawsNothing_eval _).bind fun v => .pure _
      · rename_i heq
        cases heq
        rw [evalPartsOf_eq_mapM]
        exact (DrawsNothing.mapM ih).bind fun us => .pure _

end Tree

namespace Rule

theorem drawsNothing_areMet {s : Scope} (hs : s.IsQuiet) (found : Captures) :
    (conditions : List (Option Tree)) → DrawsNothing (areMet s found conditions)
  | [] => .pure true
  | none :: _ => .breakDown _
  | some condition :: rest => by
      refine (hs.drawsNothing_eval _).attempt.bind fun o => ?_
      split
      · exact drawsNothing_areMet hs found rest
      · exact .pure false

/-- No rule that is applied in a quiet scope draws random numbers. -/
theorem drawsNothing_transform {s : Scope} (hs : s.IsQuiet) (r : Rule) (t : Tree) :
    DrawsNothing (r.transform s t) := by
  unfold transform
  split
  · exact .pure none
  · refine (drawsNothing_areMet hs _ _).bind fun met => ?_
    split
    · refine (Tree.drawsNothing_evalParts hs _).attempt.bind fun o => ?_
      split <;> exact .pure _
    · exact .pure none

end Rule

end MathExpr
