import Mathlib.Data.List.Chain
import MathExpr.Proofs.Infix
import MathExpr.Proofs.Precedence
import MathExpr.Proofs.Trees

/-!
# Factorials after a value

In infix expressions, factorials may follow each value (`Token.IsExpression`). An operator after a value
waits like one between two: a square bracket behind it starts a list, since the token before is an operator,
and a name for what is matched, which binds more tightly, becomes a part of its operand
(`Tree.ofTokens_unclear`). If no factorial is followed by such a token (`Token.IsClear`), then an expression is
accepted, and each factorial applies to a value that ends before it (`Tree.ofTokens_expression`).

The proof is by induction on the expression, inside any frames. Only what is inside the innermost bracket is
applied along the way, so that the bracket is there when it closes (`Frame.enclosing`).
-/

namespace MathExpr

/-- The factorial, which is written after its operand. -/
def Operator.factorial : Operator := ⟨"fact", .after⟩

/-! ### Expressions -/

namespace Token

mutual

/-- Tokens of a value: an atom, brackets, a call or a list, with factorials and subscripts after it. -/
inductive IsOperand : List Token → Prop
  | atom {t : Token} (ht : t.leaf?.isSome = true) : IsOperand [t]
  | group {ts : List Token} (h : IsExpression ts) :
      IsOperand (.mark .openRound :: ts ++ [.mark .closeRound])
  | emptyCall (name : String) : IsOperand [.function name, .mark .openRound, .mark .closeRound]
  | call (name : String) {ts : List Token} (h : AreExpressions ts) :
      IsOperand (.function name :: .mark .openRound :: ts ++ [.mark .closeRound])
  | emptyList : IsOperand [.mark .openSquare, .mark .closeSquare]
  | list {ts : List Token} (h : AreExpressions ts) :
      IsOperand (.mark .openSquare :: ts ++ [.mark .closeSquare])
  | factorial {ts : List Token} (h : IsOperand ts) : IsOperand (ts ++ [.op .factorial])
  | subscript {ts us : List Token} (h : IsOperand ts) (hi : IsExpression us) :
      IsOperand (ts ++ .mark .openSquare :: us ++ [.mark .closeSquare])

/-- Tokens of an expression: values with signs before them and operators between them. -/
inductive IsExpression : List Token → Prop
  | operand {ts : List Token} (h : IsOperand ts) : IsExpression ts
  | sign {o : Operator} {ts : List Token} (ho : o.IsLeadingSign) (h : IsExpression ts) :
      IsExpression (.op o :: ts)
  | binary {o : Operator} {ts us : List Token} (hl : IsExpression ts) (ho : o.IsBinary)
      (hr : IsExpression us) : IsExpression (ts ++ .op o :: us)

/-- Tokens of one expression or of more, with commas between them. -/
inductive AreExpressions : List Token → Prop
  | one {ts : List Token} (h : IsExpression ts) : AreExpressions ts
  | more {ts us : List Token} (h : AreExpressions ts) (hlast : IsExpression us) :
      AreExpressions (ts ++ .mark .comma :: us)

end

/-- What may follow a token: after a factorial no square bracket, and no operator that binds more tightly. -/
def IsClear (t u : Token) : Prop :=
  t = .op .factorial → u ≠ .mark .openSquare ∧
    ∀ o, u = .op o → Operator.precedence Operator.factorial.symbol ≤ Operator.precedence o.symbol

variable {ts : List Token}

theorem IsOperand.ne_nil (h : IsOperand ts) : ts ≠ [] := by
  cases h <;> simp

theorem IsExpression.ne_nil (h : IsExpression ts) : ts ≠ [] := by
  cases h with
  | operand h => exact h.ne_nil
  | sign | binary => simp

end Token

/-! ### Arranging an expression -/

namespace Operator

/-- Operators of the precedence of the factorial have one operand. -/
theorem not_isRightAssociative_of_factorial {o : Operator}
    (h : precedence factorial.symbol = precedence o.symbol) : isRightAssociative o.symbol = false := by
  by_contra hright
  rw [Bool.not_eq_false] at hright
  have hmem : o.symbol ∈ ["^", "+u", "-u"] := List.contains_iff_mem.1 hright
  simp only [List.mem_cons, List.not_mem_nil, or_false] at hmem
  rcases hmem with hsymbol | hsymbol | hsymbol <;> rw [hsymbol] at h <;> exact absurd h (by decide)

end Operator

namespace Arrangement

/-- An operator that does not bind more tightly than a factorial is applied after it. -/
theorem yieldsTo_factorial {o : Operator}
    (h : Operator.precedence Operator.factorial.symbol ≤ Operator.precedence o.symbol) :
    yieldsTo o .factorial = true := by
  rw [yieldsTo_iff]
  rcases Nat.lt_or_eq_of_le h with hlt | heq
  · exact .inl hlt
  · exact .inr ⟨heq, Operator.not_isRightAssociative_of_factorial heq⟩

theorem getLast?_cons_or (previous : Option Token) (t : Token) (ts : List Token) :
    (t :: ts).getLast?.or previous = ts.getLast?.or (some t) := by
  rw [List.getLast?_cons]
  cases ts.getLast? <;> rfl

theorem getLast?_append_cons_or (previous : Option Token) (ts : List Token) (t : Token)
    (us : List Token) : (ts ++ t :: us).getLast?.or previous = us.getLast?.or (some t) := by
  rw [List.getLast?_append_of_ne_nil _ (List.cons_ne_nil t us), getLast?_cons_or]

theorem getLast?_snoc_or (previous : Option Token) (ts : List Token) (t : Token) :
    (ts ++ [t]).getLast?.or previous = some t := by
  simp

/-- What stands behind some tokens is arranged after them. -/
theorem run_append {previous : Option Token} {a a' : Arrangement} {ts : List Token}
    (h : a.run previous ts = .ok a') (us : List Token) :
    a.run previous (ts ++ us) = a'.run (ts.getLast?.or previous) us := by
  induction ts generalizing previous a with
  | nil =>
      cases h
      rfl
  | cons t ts ih =>
      rw [run] at h
      cases hstep : a.step previous t with
      | error e =>
          rw [hstep] at h
          cases h
      | ok b =>
          rw [hstep] at h
          rw [List.cons_append, run_cons_of_step hstep, ih h, getLast?_cons_or]

/-- One token behind some that have been arranged. -/
theorem run_snoc {previous : Option Token} {a a' b : Arrangement} {ts : List Token} {t : Token}
    (h : a.run previous ts = .ok b) (hstep : b.step (ts.getLast?.or previous) t = .ok a') :
    a.run previous (ts ++ [t]) = .ok a' := by
  rw [run_append h, run_cons_of_step hstep, run]

end Arrangement

namespace Frame

open Arrangement (startsList yieldsTo)
open Token (IsOperand IsExpression AreExpressions IsClear)

/-- The innermost bracket, and what is around it. -/
def enclosing (fs : List Frame) : List Frame := fs.dropWhile fun f => f.operator?.isSome

variable {fs outer : List Frame} {t : Tree} {ts us : List Token} {isReady : Operator → Bool}
  {previous : Option Token} {a : Arrangement} {o : Operator}

/-- Operators are applied inside the innermost bracket only. -/
theorem enclosing_unwind (isReady : Operator → Bool) (fs : List Frame) (t : Tree) :
    enclosing (unwind isReady fs t).1 = enclosing fs := by
  fun_induction unwind isReady fs t with
  | case1 o fs t _ ih | case3 l o fs t _ ih => exact ih
  | case2 | case4 | case5 => rfl

theorem enclosing_before (o : Operator) (fs : List Frame) : enclosing (before o :: fs) = enclosing fs :=
  rfl

theorem enclosing_between (l : Tree) (o : Operator) (fs : List Frame) :
    enclosing (between l o :: fs) = enclosing fs := rfl

theorem enclosing_of_operator? (h : ∀ f ∈ fs.head?, f.operator? = none) : enclosing fs = fs := by
  cases fs with
  | nil => rfl
  | cons f fs => exact List.dropWhile_cons_of_neg (by simp [h f rfl])

theorem unwind_all (fs : List Frame) (t : Tree) :
    (unwind (fun _ => true) fs t).1 = enclosing fs := by
  rw [← enclosing_unwind, enclosing_of_operator? (operator?_unwind_all fs t)]

/-- A value has ended, or a factorial after it, inside a bracket that some tokens have opened. -/
inductive Ends (outer : List Frame) : Option Token → Arrangement → List Token → Prop
  | value {fs : List Frame} {t : Tree} {ts us : List Token} {previous : Option Token}
      (hopens : Opens fs ts) (ht : t.Spells us) (henclosing : enclosing fs = outer)
      (hprevious : startsList previous = false) : Ends outer previous (hold fs t) (ts ++ us)
  | factorial {fs : List Frame} {t : Tree} {ts us : List Token}
      (hopens : Opens fs ts) (ht : t.Spells us) (henclosing : enclosing fs = outer) :
      Ends outer (some (.op .factorial)) (mark fs t .factorial) (ts ++ us ++ [.op .factorial])

/-- Once all operators are applied, the value stands directly inside the bracket. -/
theorem Ends.closes (h : Ends outer previous a ts) :
    ∃ t us vs, Closes a outer t ∧ Opens outer us ∧ t.Spells vs ∧ us ++ vs = ts := by
  cases h with
  | @value fs t _ _ _ hopens ht henclosing _ =>
      obtain ⟨us', vs', hopens', ht', htokens⟩ := hopens.unwind ht fun _ => true
      have hcloses := closes_hold hopens.isProper t
      rw [unwind_all, henclosing] at hopens' hcloses
      exact ⟨_, us', vs', hcloses, hopens', ht', htokens⟩
  | @factorial fs t _ _ hopens ht henclosing =>
      obtain ⟨us', vs', hopens', ht', htokens⟩ := hopens.unwind (ht.after (o := .factorial) rfl) fun _ => true
      have hcloses := closes_mark (o := .factorial) hopens.isProper t rfl
      rw [unwind_all, henclosing] at hopens' hcloses
      exact ⟨_, us', vs', hcloses, hopens', ht', by rw [htokens, List.append_assoc]⟩

/-- An operator that may follow comes to stand after a value. -/
theorem Ends.step_op (h : Ends outer previous a ts) (ho : o.place ≠ .before)
    (hclear : ∀ t ∈ previous, IsClear t (.op o)) :
    ∃ fs t us vs, a.step previous (.op o) = .ok (mark fs t o) ∧ Opens fs us ∧ t.Spells vs ∧
      us ++ vs = ts ∧ enclosing fs = outer := by
  cases h with
  | @value fs t us vs _ hopens ht henclosing _ =>
      obtain ⟨us', vs', hopens', ht', htokens⟩ := hopens.unwind ht (yieldsTo o)
      exact ⟨_, _, us', vs', step_operator ho (applyWhile_hold hopens.isProper t), hopens', ht', htokens,
        (enclosing_unwind ..).trans henclosing⟩
  | @factorial fs t us vs hopens ht henclosing =>
      have hready : yieldsTo o .factorial = true :=
        Arrangement.yieldsTo_factorial ((hclear _ rfl rfl).2 o rfl)
      obtain ⟨us', vs', hopens', ht', htokens⟩ := hopens.unwind (ht.after (o := .factorial) rfl) (yieldsTo o)
      exact ⟨_, _, us', vs', step_operator ho (applyWhile_mark hopens.isProper t rfl hready), hopens', ht',
        by rw [htokens, List.append_assoc], (enclosing_unwind ..).trans henclosing⟩

/-- A square bracket that may follow a value opens a subscript. -/
theorem Ends.step_openSquare (h : Ends outer previous a ts)
    (hclear : ∀ t ∈ previous, IsClear t (.mark .openSquare)) :
    ∃ fs t us vs, a.step previous (.mark .openSquare) = .ok (arrange (index t [] :: fs)) ∧ Opens fs us ∧
      t.Spells vs ∧ us ++ vs = ts ∧ enclosing fs = outer := by
  cases h with
  | @value fs t us vs _ hopens ht henclosing hprevious =>
      exact ⟨fs, t, us, vs, Frame.step_openSquare hprevious, hopens, ht, rfl, henclosing⟩
  | factorial => exact absurd rfl (hclear _ rfl rfl).1

/-- Brackets around arguments: a comma makes room for one more. -/
structure TakesArguments (bracket : List Tree → Frame) : Prop where
  operator? : ∀ done, (bracket done).operator? = none
  comma : ∀ {a : Arrangement} {done : List Tree} {fs : List Frame} {t : Tree},
    Closes a (bracket done :: fs) t → a.comma = .ok (arrange (bracket (done ++ [t]) :: fs))
  opens : ∀ {done : List Tree} {fs : List Frame} {t : Tree} {ts us : List Token},
    Opens (bracket done :: fs) ts → t.Spells us →
      Opens (bracket (done ++ [t]) :: fs) (ts ++ us ++ [.mark .comma])

theorem takesArguments_call (name : String) : TakesArguments (call name) where
  operator? _ := rfl
  comma := comma_call
  opens hopens ht := by
    cases hopens with
    | call hfs hdone =>
        have hcall : Opens (call name _ :: _) _ := .call hfs (hdone.more ht)
        simpa using hcall

theorem takesArguments_list : TakesArguments list where
  operator? _ := rfl
  comma := comma_list
  opens hopens ht := by
    cases hopens with
    | list hfs hdone => simpa using Opens.list hfs (hdone.more ht)

/-- The tokens are arranged inside any frames, and a value ends with them inside the innermost bracket. -/
def Arranges (ts : List Token) : Prop :=
  ∀ (previous : Option Token) ⦃fs : List Frame⦄ ⦃us : List Token⦄, Opens fs us →
    startsList previous = true →
      ∃ a, (arrange fs).run previous ts = .ok a ∧
        Ends (enclosing fs) (ts.getLast?.or previous) a (us ++ ts)

/-- The tokens are arranged inside any bracket around arguments, and the last argument ends with them. -/
def ArrangesArguments (ts : List Token) : Prop :=
  ∀ (previous : Option Token) ⦃bracket : List Tree → Frame⦄ ⦃fs : List Frame⦄ ⦃us : List Token⦄,
    TakesArguments bracket → Opens (bracket [] :: fs) us → startsList previous = true →
      ∃ a done, (arrange (bracket [] :: fs)).run previous ts = .ok a ∧
        Ends (bracket done :: fs) (ts.getLast?.or previous) a (us ++ ts)

/-! #### Values -/

theorem arranges_atom {tok : Token} (htok : tok.leaf?.isSome = true) : Arranges [tok] := by
  obtain ⟨v, hv⟩ := Option.isSome_iff_exists.1 htok
  intro previous fs us hopens _
  refine ⟨_, Arrangement.run_cons_of_step (Token.step_of_leaf? hv ..) [], ?_⟩
  refine .value hopens (Token.spells_of_leaf? hv) rfl ?_
  cases tok with
  | number | text | boolean | name => rfl
  | op | function | mark => cases hv

/-- Where a bracket has closed, a value has ended. -/
theorem ends_closed {tok : Token} {vs ws : List Token} (hopens : Opens fs us) (ht : t.Spells vs)
    (htok : startsList (some tok) = false) (htokens : us ++ vs = ws ++ (ts ++ [tok])) :
    Ends (enclosing fs) ((ts ++ [tok]).getLast?.or previous) (hold fs t) (ws ++ (ts ++ [tok])) := by
  rw [Arrangement.getLast?_snoc_or, ← htokens]
  exact .value hopens ht rfl htok

theorem Arranges.group (h : Arranges ts) : Arranges (.mark .openRound :: ts ++ [.mark .closeRound]) := by
  intro previous fs us hopens hprevious
  obtain ⟨a, hrun, hends⟩ := h (some (.mark .openRound)) hopens.group rfl
  obtain ⟨t, us', vs, hcloses, hopens', ht, htokens⟩ := hends.closes
  cases hopens' with
  | group hfs =>
      refine ⟨hold fs t, ?_, ends_closed hfs ht.group rfl ?_⟩
      · rw [List.cons_append, Arrangement.run_cons_of_step (step_openRound hprevious)]
        exact Arrangement.run_snoc hrun (closeRound_group hcloses)
      · simpa using congrArg (· ++ [Token.mark .closeRound]) htokens

/-- A function and its bracket. -/
theorem run_function (fs : List Frame) (name : String) (previous : Option Token) (ts : List Token) :
    (arrange fs).run previous (.function name :: .mark .openRound :: ts) =
      (arrange (call name [] :: fs)).run (some (.mark .openRound)) ts := rfl

theorem arranges_emptyCall (name : String) :
    Arranges [.function name, .mark .openRound, .mark .closeRound] := by
  intro previous fs us hopens _
  refine ⟨_, ?_, .value hopens (.call name .nil) rfl rfl⟩
  have hstep : (arrange (call name [] :: fs)).step (some (.mark .openRound)) (.mark .closeRound) = _ :=
    closeRound_call_empty fs name
  rw [run_function, Arrangement.run_cons_of_step hstep, Arrangement.run]

theorem ArrangesArguments.call (h : ArrangesArguments ts) (name : String) :
    Arranges (.function name :: .mark .openRound :: ts ++ [.mark .closeRound]) := by
  intro previous fs us hopens _
  obtain ⟨a, done, hrun, hends⟩ := h (some (.mark .openRound)) (takesArguments_call name)
    (hopens.call .none) rfl
  obtain ⟨t, us', vs, hcloses, hopens', ht, htokens⟩ := hends.closes
  cases hopens' with
  | call hfs hdone =>
      refine ⟨hold fs _, ?_, ends_closed hfs (.call name (.snoc hdone ht)) rfl ?_⟩
      · rw [List.cons_append, List.cons_append, run_function]
        exact Arrangement.run_snoc hrun (closeRound_call hcloses)
      · simpa using congrArg (· ++ [Token.mark .closeRound]) htokens

theorem run_openSquare (fs : List Frame) {previous : Option Token} (h : startsList previous = true)
    (ts : List Token) :
    (arrange fs).run previous (.mark .openSquare :: ts) =
      (arrange (list [] :: fs)).run (some (.mark .openSquare)) ts :=
  Arrangement.run_cons_of_step (Frame.step_openSquare h) ts

theorem arranges_emptyList : Arranges [.mark .openSquare, .mark .closeSquare] := by
  intro previous fs us hopens hprevious
  refine ⟨_, ?_, .value hopens (.list .nil) rfl rfl⟩
  have hstep : (arrange (Frame.list [] :: fs)).step (some (.mark .openSquare)) (.mark .closeSquare) = _ :=
    closeSquare_list_empty fs
  rw [run_openSquare fs hprevious, Arrangement.run_cons_of_step hstep, Arrangement.run]

theorem ArrangesArguments.list (h : ArrangesArguments ts) :
    Arranges (.mark .openSquare :: ts ++ [.mark .closeSquare]) := by
  intro previous fs us hopens hprevious
  obtain ⟨a, done, hrun, hends⟩ := h (some (.mark .openSquare)) takesArguments_list
    (hopens.list .none) rfl
  obtain ⟨t, us', vs, hcloses, hopens', ht, htokens⟩ := hends.closes
  cases hopens' with
  | list hfs hdone =>
      refine ⟨hold fs _, ?_, ends_closed hfs (.list (.snoc hdone ht)) rfl ?_⟩
      · rw [List.cons_append, run_openSquare fs hprevious]
        exact Arrangement.run_snoc hrun (closeSquare_list hcloses)
      · simpa using congrArg (· ++ [Token.mark .closeSquare]) htokens

/-! #### What follows a value -/

/-- What may follow the last token may follow the token before. -/
theorem isClear_last {u : Token} (hts : ts ≠ []) (h : ∀ t ∈ ts.getLast?, IsClear t u) :
    ∀ t ∈ ts.getLast?.or previous, IsClear t u := by
  rw [List.getLast?_eq_some_getLast hts] at h ⊢
  exact h

theorem Arranges.factorial (h : Arranges ts) (hts : ts ≠ [])
    (hclear : ∀ t ∈ ts.getLast?, IsClear t (.op .factorial)) : Arranges (ts ++ [.op .factorial]) := by
  intro previous fs us hopens hprevious
  obtain ⟨a, hrun, hends⟩ := h previous hopens hprevious
  obtain ⟨fs', t, us', vs, hstep, hopens', ht, htokens, henclosing⟩ :=
    hends.step_op Placement.noConfusion (isClear_last hts hclear)
  refine ⟨_, Arrangement.run_snoc hrun hstep, ?_⟩
  rw [Arrangement.getLast?_snoc_or, ← List.append_assoc, ← htokens]
  exact .factorial hopens' ht henclosing

theorem Arranges.subscript (h : Arranges ts) (hts : ts ≠ [])
    (hclear : ∀ t ∈ ts.getLast?, IsClear t (.mark .openSquare)) (hi : Arranges us) :
    Arranges (ts ++ .mark .openSquare :: us ++ [.mark .closeSquare]) := by
  intro previous fs ws hopens hprevious
  obtain ⟨a, hrun, hends⟩ := h previous hopens hprevious
  obtain ⟨fs₁, t₁, us₁, vs₁, hstep, hopens₁, ht₁, htokens₁, henclosing⟩ :=
    hends.step_openSquare (isClear_last hts hclear)
  obtain ⟨a', hrun', hends'⟩ := hi (some (.mark .openSquare)) (hopens₁.index ht₁ .none) rfl
  obtain ⟨t, us', vs, hcloses, hopens', ht, htokens⟩ := hends'.closes
  cases hopens' with
  | index hfs htarget hdone =>
      -- the target was kept with the bracket, and nothing stands between it and the subscript
      refine ⟨hold fs₁ _, ?_, henclosing ▸ ends_closed hfs (.subscript htarget ht) rfl ?_⟩
      · refine Arrangement.run_snoc (b := a') ?_ (closeSquare_index hcloses)
        rw [Arrangement.run_append hrun, Arrangement.run_cons_of_step hstep, hrun']
      · cases hdone.eq_nil
        have htokens := congrArg (· ++ [Token.mark .closeSquare]) htokens
        rw [htokens₁] at htokens
        simpa using htokens

/-! #### Operators -/

theorem Arranges.sign (h : Arranges ts) (ho : o.IsLeadingSign) : Arranges (.op o :: ts) := by
  intro previous fs us hopens _
  obtain ⟨a, hrun, hends⟩ := h (some (.op o))
    (hopens.before ho.1 (Operator.arity_of_isSign ho.2)) rfl
  refine ⟨a, (Arrangement.run_cons_of_step (step_before ho.1) ts).trans hrun, ?_⟩
  rw [Arrangement.getLast?_cons_or, ← enclosing_before o]
  simpa using hends

theorem Arranges.binary (h : Arranges ts) (hts : ts ≠ []) (ho : o.IsBinary)
    (hclear : ∀ t ∈ ts.getLast?, IsClear t (.op o)) (hr : Arranges us) :
    Arranges (ts ++ .op o :: us) := by
  intro previous fs ws hopens hprevious
  obtain ⟨a, hrun, hends⟩ := h previous hopens hprevious
  obtain ⟨fs₁, t₁, us₁, vs₁, hstep, hopens₁, ht₁, htokens₁, henclosing⟩ :=
    hends.step_op (by rw [ho.1]; exact Placement.noConfusion) (isClear_last hts hclear)
  obtain ⟨a', hrun', hends'⟩ := hr (some (.op o)) (hopens₁.between ho.1 ho.2 ht₁) rfl
  refine ⟨a', ?_, ?_⟩
  · rw [Arrangement.run_append hrun, Arrangement.run_cons_of_step hstep, mark_eq_arrange, hrun']
  · rw [htokens₁] at hends'
    -- an operator opens no bracket, so the value still ends inside the same one
    rw [Arrangement.getLast?_append_cons_or, ← henclosing, ← enclosing_between t₁ o]
    simpa using hends'

theorem Arranges.one (h : Arranges ts) : ArrangesArguments ts := by
  intro previous bracket fs us hbracket hopens hprevious
  obtain ⟨a, hrun, hends⟩ := h previous hopens hprevious
  rw [enclosing_of_operator? (by simp [hbracket.operator?])] at hends
  exact ⟨a, [], hrun, hends⟩

theorem ArrangesArguments.more (h : ArrangesArguments ts) (hlast : Arranges us) :
    ArrangesArguments (ts ++ .mark .comma :: us) := by
  intro previous bracket fs ws hbracket hopens hprevious
  obtain ⟨a, done, hrun, hends⟩ := h previous hbracket hopens hprevious
  obtain ⟨t, us₁, vs, hcloses, hopens₁, ht, htokens₁⟩ := hends.closes
  have hstep : a.step (ts.getLast?.or previous) (.mark .comma) =
      .ok (arrange (bracket (done ++ [t]) :: fs)) := by
    change a.comma.mapError Failure.error = _
    rw [hbracket.comma hcloses]
    rfl
  obtain ⟨a', hrun', hends'⟩ := hlast (some (.mark .comma)) (hbracket.opens hopens₁ ht) rfl
  rw [enclosing_of_operator? (by simp [hbracket.operator?])] at hends'
  refine ⟨a', done ++ [t], ?_, ?_⟩
  · rw [Arrangement.run_append hrun, Arrangement.run_cons_of_step hstep, hrun']
  · rw [htokens₁] at hends'
    rw [Arrangement.getLast?_append_cons_or]
    simpa using hends'

/-! #### Expressions -/

/-- An expression in which nothing unclear follows a factorial is arranged. -/
theorem arranges_expression (h : IsExpression ts) (hclear : ts.IsChain IsClear) : Arranges ts := by
  induction h using Token.IsExpression.rec
    (motive_1 := fun ts _ => ts.IsChain IsClear → Arranges ts)
    (motive_3 := fun ts _ => ts.IsChain IsClear → ArrangesArguments ts) with
  | atom ht => exact arranges_atom ht
  | group _ ih hclear => exact (ih hclear.tail.left_of_append).group
  | emptyCall name => exact arranges_emptyCall name
  | call name _ ih hclear => exact (ih hclear.tail.tail.left_of_append).call name
  | emptyList => exact arranges_emptyList
  | list _ ih hclear => exact (ih hclear.tail.left_of_append).list
  | factorial h ih hclear =>
      obtain ⟨hts, -, hlast⟩ := List.isChain_append.1 hclear
      exact (ih hts).factorial h.ne_nil fun t ht => hlast t ht _ rfl
  | subscript h _ ih ihi hclear =>
      obtain ⟨hts, hus, hlast⟩ := List.isChain_append.1 hclear.left_of_append
      exact (ih hts).subscript h.ne_nil (fun t ht => hlast t ht _ rfl) (ihi hus.tail)
  | operand _ ih => exact ih hclear
  | sign ho _ ih => exact (ih hclear.tail).sign ho
  | binary hl ho _ ihl ihr =>
      obtain ⟨hts, hus, hlast⟩ := List.isChain_append.1 hclear
      exact (ihl hts).binary hl.ne_nil ho (fun t ht => hlast t ht _ rfl) (ihr hus.tail)
  | one _ ih hclear => exact (ih hclear).one
  | more _ _ ih ihlast hclear =>
      obtain ⟨hts, hus, -⟩ := List.isChain_append.1 hclear
      exact (ih hts).more (ihlast hus.tail)

end Frame

/-! ### Operators after their operand -/

namespace Tree

/-- Between some tokens and others an operator is applied to a value that ends there: in `x` any other tree
could stand in the place of this application, with its own tokens in place of those of the value and the
operator. What `x` is, `spells` and `parts` say. -/
def TakesOperand {α : Type} (spells : α → List Token → Prop) (parts : α → List Tree) (x : α)
    (before : List Token) (o : Operator) (rest : List Token) : Prop :=
  ∃ (earlier us : List Token) (u : Tree) (inside : Tree → α),
    before = earlier ++ us ∧ u.Spells us ∧ x = inside (.node (.op o) [u]) ∧
      ∀ v, v ∈ parts (inside v) ∧ ∀ vs, v.Spells vs → spells (inside v) (earlier ++ vs ++ rest)

/-- An operator is applied to a value that ends there wherever it stands among the tokens of `x`. -/
def TakesOperands {α : Type} (spells : α → List Token → Prop) (parts : α → List Tree) (o : Operator)
    (x : α) (ts : List Token) : Prop :=
  ∀ before rest, ts = before ++ .op o :: rest → TakesOperand spells parts x before o rest

section

variable {α β γ : Type} {spells : α → List Token → Prop} {parts : α → List Tree}
  {spells' : β → List Token → Prop} {parts' : β → List Tree} {spells'' : γ → List Token → Prop}
  {parts'' : γ → List Tree} {x : α} {y : β} {o : Operator}
  {before rest ts us lead mid trail : List Token}

/-- What is applied in a part is applied in the whole. -/
theorem TakesOperand.within (h : TakesOperand spells parts x before o rest) (lead trail : List Token)
    (f : α → β) (hparts : ∀ x, parts x ⊆ parts' (f x))
    (hspells : ∀ x ts, spells x ts → spells' (f x) (lead ++ ts ++ trail)) :
    TakesOperand spells' parts' (f x) (lead ++ before) o (rest ++ trail) := by
  obtain ⟨earlier, us, u, inside, rfl, hu, rfl, hinside⟩ := h
  refine ⟨lead ++ earlier, us, u, f ∘ inside, by simp, hu, rfl, fun v => ?_⟩
  obtain ⟨hmem, hvs⟩ := hinside v
  refine ⟨hparts _ hmem, fun vs hv => ?_⟩
  simpa using hspells _ _ (hvs vs hv)

/-- A token of two lists is one of the first or of the second. -/
theorem split_append {tok : Token} (h : ts ++ us = before ++ tok :: rest) :
    (∃ more, ts = before ++ tok :: more ∧ rest = more ++ us) ∨
      ∃ more, before = ts ++ more ∧ us = more ++ tok :: rest := by
  rcases List.append_eq_append_iff.1 h with ⟨more, hbefore, hus⟩ | ⟨more, hts, hrest⟩
  · exact .inr ⟨more, hbefore, hus⟩
  · cases more with
    | nil => exact .inr ⟨[], by simpa using hts.symm, by simpa using hrest.symm⟩
    | cons tok' more =>
        obtain ⟨rfl, hmore⟩ := List.cons.inj hrest
        exact .inl ⟨more, hts, hmore⟩

/-- A token that is none of those around some tokens is one of these. -/
theorem split_around {tok : Token} (hlead : tok ∉ lead) (htrail : tok ∉ trail)
    (h : lead ++ ts ++ trail = before ++ tok :: rest) :
    ∃ before' rest', ts = before' ++ tok :: rest' ∧ before = lead ++ before' ∧ rest = rest' ++ trail := by
  rcases split_append h with ⟨more, hmore, rfl⟩ | ⟨more, -, rfl⟩
  · rcases split_append hmore with ⟨more', rfl, -⟩ | ⟨before', rfl, rfl⟩
    · exact absurd (by simp) hlead
    · exact ⟨before', more, rfl, rfl, rfl⟩
  · exact absurd (by simp) htrail

theorem takesOperands_of_not_mem (h : .op o ∉ ts) : TakesOperands spells parts o x ts := by
  rintro before rest rfl
  exact absurd (by simp) h

/-- Tokens around those of a part. -/
theorem TakesOperands.around (h : TakesOperands spells parts o x ts) (f : α → β)
    (hlead : .op o ∉ lead) (htrail : .op o ∉ trail) (hparts : ∀ x, parts x ⊆ parts' (f x))
    (hspells : ∀ x ts, spells x ts → spells' (f x) (lead ++ ts ++ trail)) :
    TakesOperands spells' parts' o (f x) (lead ++ ts ++ trail) := by
  intro before rest hts
  obtain ⟨before', rest', hin, rfl, rfl⟩ := split_around hlead htrail hts
  exact (h before' rest' hin).within lead trail f hparts hspells

/-- Tokens between those of two parts and behind them. -/
theorem TakesOperands.beside (hx : TakesOperands spells parts o x ts)
    (hy : TakesOperands spells' parts' o y us) (f : α → β → γ) (hts : spells x ts) (hus : spells' y us)
    (hmid : .op o ∉ mid) (htrail : .op o ∉ trail) (hleft : ∀ x y, parts x ⊆ parts'' (f x y))
    (hright : ∀ x y, parts' y ⊆ parts'' (f x y))
    (hspells : ∀ {x ts y us}, spells x ts → spells' y us → spells'' (f x y) (ts ++ mid ++ us ++ trail)) :
    TakesOperands spells'' parts'' o (f x y) (ts ++ mid ++ us ++ trail) := by
  intro before rest h
  rw [List.append_assoc, List.append_assoc] at h
  rcases split_append h with ⟨more, hmore, rfl⟩ | ⟨more, rfl, hmore⟩
  · refine (hx before more hmore).within [] _ (f · y) (hleft · y) fun x' ts' hx' => ?_
    simpa using hspells hx' hus
  · rw [← List.append_assoc] at hmore
    obtain ⟨before', rest', hin, rfl, rfl⟩ := split_around hmid htrail hmore
    rw [← List.append_assoc]
    exact (hy before' rest' hin).within _ trail (f x) (hright x) fun y' us' hy' => hspells hts hy'

end

theorem subset_subtrees_of_mem {h : Head} {args : List Tree} {t : Tree} (ht : t ∈ args) :
    t.subtrees ⊆ (node h args).subtrees := fun _ hv => subtrees_of_mem ht hv

theorem subtreesOf_subset_append (args args' : List Tree) :
    subtreesOf args ⊆ subtreesOf (args ++ args') := by
  intro v hv
  obtain ⟨t, ht, hv⟩ := mem_subtreesOf.1 hv
  exact mem_subtreesOf.2 ⟨t, List.mem_append_left _ ht, hv⟩

theorem subtrees_subset_append (args : List Tree) (t : Tree) : t.subtrees ⊆ subtreesOf (args ++ [t]) :=
  fun _ hv => mem_subtreesOf.2 ⟨t, by simp, hv⟩

/-- In an infix expression each operator that is written after its operand is applied to a value that ends
directly before it. -/
theorem Spells.takesOperands {t : Tree} {ts : List Token} (h : t.Spells ts) {o : Operator}
    (ho : o.place = .after) : TakesOperands Spells subtrees o t ts := by
  have hne (o' : Operator) (ho' : o'.place ≠ .after) : Token.op o ∉ [Token.op o'] := by
    intro hmem
    cases List.mem_singleton.1 hmem
    exact ho' ho
  induction h using Spells.rec
    (motive_2 := fun args ts _ => TakesOperands SpellsAll subtreesOf o args ts)
    (motive_3 := fun args ts _ => TakesOperands SpellsEach subtreesOf o args ts) with
  | number | text | boolean | name => exact takesOperands_of_not_mem (by simp)
  | @group t us _ ih =>
      have hgroup : TakesOperands Spells subtrees o (id t) ([.mark .openRound] ++ us ++ [.mark .closeRound]) :=
        ih.around id (by simp) (by simp) (fun _ => List.Subset.refl _) fun _ _ => .group
      exact hgroup
  | @before o' _ us ho' _ ih =>
      have hlead := hne o' (by rw [ho']; exact Placement.noConfusion)
      have hnode : TakesOperands Spells subtrees o _ ([.op o'] ++ us ++ []) :=
        ih.around (fun t => .node (.op o') [t]) hlead List.not_mem_nil
          (fun _ => subset_subtrees_of_mem (by simp)) fun _ _ h => by simpa using h.before ho'
      simpa using hnode
  | @between o' _ _ us vs ho' hl hr ihl ihr =>
      have hmid := hne o' (by rw [ho']; exact Placement.noConfusion)
      have hnode : TakesOperands Spells subtrees o _ (us ++ [.op o'] ++ vs ++ []) :=
        ihl.beside ihr (fun l r => .node (.op o') [l, r]) hl hr hmid List.not_mem_nil
          (fun _ _ => subset_subtrees_of_mem (by simp)) (fun _ _ => subset_subtrees_of_mem (by simp))
          fun hl hr => by simpa using hl.between ho' hr
      simpa using hnode
  | @after o' t us ho' ht ih =>
      intro before rest hts
      rcases split_append hts with ⟨more, hmore, rfl⟩ | ⟨more, rfl, hmore⟩
      · have hnode : TakesOperand Spells subtrees _ ([] ++ before) o (more ++ [.op o']) :=
          (ih before more hmore).within [] _ (fun t => .node (.op o') [t])
            (fun _ => subset_subtrees_of_mem (by simp)) fun _ _ h => h.after ho'
        exact hnode
      · -- the operator itself
        obtain ⟨rfl, htok, rfl⟩ : more = [] ∧ Token.op o' = .op o ∧ rest = [] := by
          cases more with
          | nil => simpa [eq_comm] using hmore
          | cons => simp at hmore
        cases htok
        refine ⟨[], us, t, id, by simp, ht, rfl, fun v => ⟨mem_subtrees_self v, fun vs hv => ?_⟩⟩
        simpa using hv
  | @call name _ us _ ih =>
      have hnode : TakesOperands Spells subtrees o _
          ([.function name, .mark .openRound] ++ us ++ [.mark .closeRound]) :=
        ih.around _ (by simp) (by simp) (fun _ => List.subset_cons_self _ _) fun _ _ => .call name
      exact hnode
  | @list _ us _ ih =>
      have hnode : TakesOperands Spells subtrees o _ ([.mark .openSquare] ++ us ++ [.mark .closeSquare]) :=
        ih.around _ (by simp) (by simp) (fun _ => List.subset_cons_self _ _) fun _ _ => .list
      exact hnode
  | @subscript _ _ us vs ht hi iht ihi =>
      have hnode : TakesOperands Spells subtrees o _
          (us ++ [.mark .openSquare] ++ vs ++ [.mark .closeSquare]) :=
        iht.beside ihi (fun t i => .node (.call "listval") [t, i]) ht hi (by simp) (by simp)
          (fun _ _ => subset_subtrees_of_mem (by simp)) (fun _ _ => subset_subtrees_of_mem (by simp))
          fun ht hi => by simpa using ht.subscript hi
      simpa using hnode
  | nil | none => exact takesOperands_of_not_mem (by simp)
  | @snoc _ _ us vs hargs ht ihargs iht =>
      have hall : TakesOperands SpellsAll subtreesOf o _ (us ++ [] ++ vs ++ []) :=
        ihargs.beside iht (fun args t => args ++ [t]) hargs ht List.not_mem_nil List.not_mem_nil
          (fun _ _ => subtreesOf_subset_append _ _) (fun _ _ => subtrees_subset_append _ _)
          fun hargs ht => by simpa using SpellsAll.snoc hargs ht
      simpa using hall
  | @more _ _ us vs hargs ht ihargs iht =>
      have hall : TakesOperands SpellsEach subtreesOf o _ (us ++ [] ++ vs ++ [.mark .comma]) :=
        ihargs.beside iht (fun args t => args ++ [t]) hargs ht List.not_mem_nil (by simp)
          (fun _ _ => subtreesOf_subset_append _ _) (fun _ _ => subtrees_subset_append _ _)
          fun hargs ht => by simpa using hargs.more ht
      simpa using hall

/-! ### The tree of an expression -/

/-- **Factorials.** An expression in which no factorial is followed by a square bracket or by an operator that
binds more tightly is accepted, and each factorial is applied to a value that ends directly before it. -/
theorem ofTokens_expression (isVariable : String → Bool) {ts : List Token} (h : Token.IsExpression ts)
    (hclear : ts.IsChain Token.IsClear)
    (hfunctions : ∀ name, .function name ∈ ts → isVariable (Text.lower name) = false) :
    ∃ t, ofTokens isVariable ts = .ok (some t) ∧ t.Spells ts ∧
      TakesOperands Spells subtrees .factorial t ts := by
  obtain ⟨a, hrun, hends⟩ := Frame.arranges_expression h hclear none .nil rfl
  obtain ⟨t, us, vs, hcloses, hopens, ht, htokens⟩ := hends.closes
  cases hopens
  rw [List.nil_append, List.nil_append] at htokens
  subst htokens
  refine ⟨t, ?_, ht, ht.takesOperands rfl⟩
  rw [ofTokens, withProducts_eq_self hfunctions, show Arrangement.empty = Frame.arrange [] from rfl, hrun]
  change a.finish.mapError Failure.error = _
  rw [Frame.finish_of_closes hcloses]
  rfl

/-- Factorials in a subscript, after it, and one after the other. -/
theorem ofTokens_expression_subscript :
    ∃ ts t, Token.ofSource "-a[n!]! + n!!" = .ok ts ∧ ofTokens (fun _ => false) ts = .ok (some t) ∧
      t.Spells ts ∧ TakesOperands Spells subtrees .factorial t ts := by
  have hn : Token.IsOperand ([.name "n" []] ++ [.op .factorial]) := .factorial (.atom rfl)
  have hleft : Token.IsOperand ([.name "a" []] ++ .mark .openSquare :: ([.name "n" []] ++ [.op .factorial]) ++
      [.mark .closeSquare] ++ [.op .factorial]) := .factorial (.subscript (.atom rfl) (.operand hn))
  have hsum := Token.IsExpression.binary (o := ⟨"+", .between⟩) (.operand hleft) ⟨rfl, rfl⟩
    (.operand hn.factorial)
  have hgrammar := hsum.sign (o := ⟨"-u", .before⟩) ⟨rfl, rfl⟩
  have hprecedence : Operator.precedence "fact" ≤ Operator.precedence "+" := by decide
  obtain ⟨t, ht⟩ := ofTokens_expression (fun _ => false) hgrammar
    (by simp [Token.IsClear, Operator.factorial, hprecedence]) fun _ _ => rfl
  exact ⟨_, t, by decide +kernel, ht⟩

/-- Behind a factorial a square bracket starts a list, for which there is no operator. A name for what is
matched becomes a part of the operand. -/
theorem ofTokens_unclear :
    (∃ ts, Token.ofSource "x![1]" = .ok ts ∧ Token.IsExpression ts ∧
      ofTokens (fun _ => false) ts = .error (.error .missingOperator)) ∧
    ∃ ts, Token.ofSource "x!;y" = .ok ts ∧ Token.IsExpression ts ∧
      ofTokens (fun _ => false) ts = .ok (some (.node (.op .factorial)
        [.node (.op ⟨";", .between⟩) [.leaf (.name "x" []), .leaf (.name "y" [])]])) := by
  have hx : Token.IsOperand ([.name "x" []] ++ [.op .factorial]) := .factorial (.atom rfl)
  have hone : Token.IsExpression [.number (.real 1)] := .operand (.atom rfl)
  have hpair := Token.IsExpression.binary (o := ⟨";", .between⟩) (.operand hx) ⟨rfl, rfl⟩
    (.operand (.atom (t := .name "y" []) rfl))
  refine ⟨⟨_, ?_, .operand (hx.subscript hone), rfl⟩, ⟨_, ?_, hpair, rfl⟩⟩
  · decide +kernel
  · decide +kernel

end Tree

end MathExpr
