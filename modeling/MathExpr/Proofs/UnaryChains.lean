import MathExpr.Proofs.WrittenOperands

/-!
# Chains of unary operators

Signs, `not` and factorials may be applied to an operand one after another. What is written for such a chain
is read as a chain of the same operators, but a `not` that is written before factorials without a bracket is
applied last: it binds as tightly as they do, and to what stands before them (`Unary.asRead`). So a chain is
read back exactly if no `not` is applied to a factorial (`Tree.ofSource_applied`): what is written for
`not (x!)` is read as `(not x)!` (`Tree.ofSource_notFactorial`).

The proof is by induction on the chain. Operators are read inside any frames, of which none is a `not` or a
factorial but perhaps the innermost, which then is a `not` that waits (`Frame.waiting`).
-/

namespace MathExpr

open Arrangement (startsList yieldsTo)

/-- An operator with one operand. -/
inductive Unary where
  | plus
  | minus
  | not
  | factorial
  deriving DecidableEq

namespace Unary

/-- The operator in an expression. -/
def operator : Unary → Operator
  | plus => ⟨"+u", .before⟩
  | minus => ⟨"-u", .before⟩
  | not => ⟨"not", .before⟩
  | factorial => .factorial

/-- Whether it is written before its operand. -/
def isSign : Unary → Bool
  | factorial => false
  | _ => true

/-- A `not` that waits, if there is one. -/
def held (waits : Bool) : List Unary := if waits then [not] else []

/-- The operators of a chain as they are read from what is written for it, the outermost first. A `not` that
waits is applied after the factorials that follow. -/
def asRead (waits : Bool) : List Unary → List Unary
  | [] => held waits
  | factorial :: os => factorial :: asRead waits os
  | not :: os => held waits ++ asRead true os
  | o :: os => held waits ++ o :: asRead false os

/-- No `not` is applied to a factorial. -/
def IsClear (os : List Unary) : Prop := os.IsChain fun o o' => ¬(o = not ∧ o' = factorial)

theorem length_asRead (waits : Bool) (os : List Unary) :
    (asRead waits os).length = (held waits).length + os.length := by
  induction os generalizing waits with
  | nil => rfl
  | cons o os ih =>
      cases o with
      | factorial =>
          rw [asRead, List.length_cons, List.length_cons, ih, Nat.add_assoc]
      | not | plus | minus => simp [asRead, ih, held, Nat.add_comm]

theorem isClear_cons {o : Unary} (ho : o ≠ not) {os : List Unary} : IsClear (o :: os) ↔ IsClear os := by
  simp [IsClear, List.isChain_cons, ho]

theorem isClear_held (waits : Bool) {o : Unary} (ho : o ≠ factorial) {os : List Unary} :
    IsClear (held waits ++ o :: os) ↔ IsClear (o :: os) := by
  cases waits with
  | false => rfl
  | true => simp [held, IsClear, ho]

/-- A chain is read back exactly if no `not` is applied to a factorial. -/
theorem asRead_eq_iff (waits : Bool) (os : List Unary) :
    asRead waits os = held waits ++ os ↔ IsClear (held waits ++ os) := by
  induction os generalizing waits with
  | nil => cases waits <;> simp [asRead, held, IsClear]
  | cons o os ih =>
      have hfalse : asRead false os = os ↔ IsClear os := ih false
      have htrue : asRead true os = not :: os ↔ IsClear (not :: os) := ih true
      cases o with
      | factorial =>
          cases waits with
          | false => simp [asRead, held, hfalse, isClear_cons]
          | true => simp [asRead, held, IsClear]
      | not => rw [isClear_held waits (by decide), asRead, List.append_right_inj, htrue]
      | plus | minus =>
          rw [isClear_held waits (by decide), isClear_cons (by decide), asRead, List.append_right_inj,
            List.cons_inj_right, hfalse]
          all_goals exact nofun

end Unary

/-! ### Chains -/

namespace Tree

/-- Operators applied to an operand, the outermost first. -/
def applied (os : List Unary) (x : Tree) : Tree := os.foldr (fun o t => .node (.op o.operator) [t]) x

@[simp] theorem applied_nil (x : Tree) : applied [] x = x := rfl

@[simp] theorem applied_cons (o : Unary) (os : List Unary) (x : Tree) :
    applied (o :: os) x = .node (.op o.operator) [applied os x] := rfl

theorem applied_append (os os' : List Unary) (x : Tree) :
    applied (os ++ os') x = applied os (applied os' x) := List.foldr_append ..

/-- Chains of one length over equal operands are equal exactly if their operators are. -/
theorem eqv_applied_iff {x u : Tree} (h : x.eqv u = true) {os os' : List Unary}
    (hlength : os.length = os'.length) : (applied os x).eqv (applied os' u) = true ↔ os = os' := by
  induction os generalizing os' with
  | nil =>
      rw [List.eq_nil_of_length_eq_zero hlength.symm]
      simpa using h
  | cons o os ih =>
      cases os' with
      | nil => cases hlength
      | cons o' os' =>
          have hsymbol : o.operator.symbol = o'.operator.symbol ↔ o = o' := by
            cases o <;> cases o' <;> decide
          simp [eqv, eqvAll, Head.eqv, hsymbol, ih (Nat.succ.inj hlength)]

end Tree

/-! ### Reading a chain -/

namespace Frame

open MathExpr.Tree (applied)
open Unary (asRead held)

variable {fs : List Frame} {a : Arrangement} {t u : Tree} {o : Unary} {os : List Unary} {ts : List Token}
  {previous : Option Token}

/-- Frames in which a `not` waits, or does not. -/
def waiting (waits : Bool) (fs : List Frame) : List Frame :=
  if waits then before Unary.not.operator :: fs else fs

/-- A value has ended inside frames, of which the last factorial may still wait. -/
inductive Holds (fs : List Frame) : Tree → Arrangement → Prop
  | value (t : Tree) : Holds fs t (hold fs t)
  | factorial (t : Tree) : Holds fs (.node (.op .factorial) [t]) (mark fs t .factorial)

/-- A factorial is applied to a value after what yields to it. -/
theorem Holds.step (h : Holds fs t a) (hfs : ∀ f ∈ fs, f.IsProper) (previous : Option Token) :
    ∃ a', a.step previous (.op .factorial) = .ok a' ∧
      Holds (unwind (yieldsTo .factorial) fs t).1
        (.node (.op .factorial) [(unwind (yieldsTo .factorial) fs t).2]) a' := by
  refine ⟨_, ?_, .factorial _⟩
  cases h with
  | value => exact step_operator Placement.noConfusion (applyWhile_hold hfs t)
  | factorial t =>
      have hready : yieldsTo .factorial .factorial = true := Arrangement.yieldsTo_factorial (Nat.le_refl _)
      exact step_operator Placement.noConfusion (applyWhile_mark hfs t rfl hready)

theorem Holds.closes (h : Holds fs t a) (hfs : ∀ f ∈ fs, f.IsProper) :
    Closes a (unwind (fun _ => true) fs t).1 (unwind (fun _ => true) fs t).2 := by
  cases h with
  | value => exact closes_hold hfs t
  | factorial t => exact closes_mark hfs t rfl

/-- A factorial applies a `not` that waits. -/
theorem unwind_waiting (h : StaysAbove .factorial fs) (waits : Bool) (t : Tree) :
    unwind (yieldsTo .factorial) (waiting waits fs) t = (fs, applied (held waits) t) := by
  cases waits with
  | false => exact unwind_eq_self h t
  | true =>
      have hready : yieldsTo .factorial Unary.not.operator = true := by decide
      rw [waiting, if_pos rfl, unwind, if_pos hready]
      exact unwind_eq_self h _

theorem unwind_all_waiting (fs : List Frame) (waits : Bool) (t : Tree) :
    unwind (fun _ => true) (waiting waits fs) t = unwind (fun _ => true) fs (applied (held waits) t) := by
  cases waits with
  | false => rfl
  | true => rfl

theorem isProper_waiting (hfs : ∀ f ∈ fs, f.IsProper) (waits : Bool) : ∀ f ∈ waiting waits fs, f.IsProper := by
  cases waits with
  | false => exact hfs
  | true => exact List.forall_mem_cons.2 ⟨rfl, hfs⟩

/-- Inside any frames to which a factorial does not yield, and after a `not` that waits or none, the tokens are
read as a chain over a value. The `not` may have been applied before the last factorial. -/
def ReadsChain (u : Tree) (os : List Unary) (ts : List Token) : Prop :=
  ∀ (waits : Bool) (fs : List Frame) (previous : Option Token), StaysAbove .factorial fs →
    (∀ f ∈ fs, f.IsProper) → startsList previous = true →
      ∃ a waits' os', (arrange (waiting waits fs)).run previous ts = .ok a ∧
        Holds (waiting waits' fs) (applied os' u) a ∧ held waits' ++ os' = asRead waits os

/-- Directly inside any bracket the tokens are read as a chain over a value. -/
def ReadsChainInside (u : Tree) (os : List Unary) (ts : List Token) : Prop :=
  ∀ (fs : List Frame) (previous : Option Token), (∀ f ∈ fs.head?, f.operator? = none) →
    (∀ f ∈ fs, f.IsProper) → startsList previous = true →
      ∃ a, (arrange fs).run previous ts = .ok a ∧ Closes a fs (applied (asRead false os) u)

theorem readsChain_nil {text : String} (h : Tree.IsClosed text ts u) : ReadsChain u [] ts := by
  intro waits fs previous _ _ hprevious
  exact ⟨_, waits, [], h.run _ previous hprevious, .value u, List.append_nil _⟩

/-- All operators that wait are applied when the bracket closes. -/
theorem ReadsChain.closes (h : ReadsChain u os ts) (waits : Bool) (hfs : StaysAbove .factorial fs)
    (hproper : ∀ f ∈ fs, f.IsProper) (hprevious : startsList previous = true) :
    ∃ a, (arrange (waiting waits fs)).run previous ts = .ok a ∧
      Closes a (unwind (fun _ => true) fs (applied (asRead waits os) u)).1
        (unwind (fun _ => true) fs (applied (asRead waits os) u)).2 := by
  obtain ⟨a, waits', os', hrun, hholds, hos⟩ := h waits fs previous hfs hproper hprevious
  have hcloses := hholds.closes (isProper_waiting hproper waits')
  rw [unwind_all_waiting, ← Tree.applied_append, hos] at hcloses
  exact ⟨a, hrun, hcloses⟩

/-- A frame that is none of an operator has no operator with any property. -/
theorem forall_operator_of_eq_none {P : Operator → Prop} (h : ∀ f ∈ fs.head?, f.operator? = none) :
    ∀ f ∈ fs.head?, ∀ w, f.operator? = some w → P w := by
  intro f hf w hw
  rw [h f hf] at hw
  cases hw

theorem ReadsChain.inside (h : ReadsChain u os ts) : ReadsChainInside u os ts := by
  intro fs previous hfs hproper hprevious
  have hcloses := h.closes false (forall_operator_of_eq_none hfs) hproper hprevious
  rwa [unwind_eq_self (forall_operator_of_eq_none hfs)] at hcloses

theorem ReadsChain.factorial (h : ReadsChain u os ts) :
    ReadsChain u (.factorial :: os) (ts ++ [.op .factorial]) := by
  intro waits fs previous hfs hproper hprevious
  obtain ⟨a, waits', os', hrun, hholds, hos⟩ := h waits fs previous hfs hproper hprevious
  obtain ⟨a', hstep, hholds'⟩ := hholds.step (isProper_waiting hproper waits') (ts.getLast?.or previous)
  -- a `not` that still waits is applied first and becomes a part of the operand
  rw [unwind_waiting hfs, ← Tree.applied_append, hos] at hholds'
  exact ⟨a', false, .factorial :: asRead waits os, Arrangement.run_snoc hrun hstep, hholds', rfl⟩

theorem ReadsChain.sign (h : ReadsChain u os ts) (ho : o.isSign = true) :
    ReadsChainInside u (o :: os) (.op o.operator :: ts) := by
  intro fs previous hfs hproper hprevious
  have hbefore : o.operator.place = .before := by
    cases o with
    | factorial => cases ho
    | plus | minus | not => rfl
  have habove (hnot : o ≠ .not) : StaysAbove .factorial (before o.operator :: fs) := by
    rintro f ⟨⟩ w ⟨⟩
    cases o with
    | factorial => cases ho
    | not => exact absurd rfl hnot
    | plus | minus => decide
  have hstarts : startsList (some (.op o.operator)) = true := rfl
  rw [Arrangement.run_cons_of_step (step_before hbefore)]
  cases o with
  | factorial => cases ho
  | not =>
      -- it waits where the rest of the chain starts
      have hcloses := h.closes true (forall_operator_of_eq_none hfs) hproper hstarts
      rwa [unwind_eq_self (forall_operator_of_eq_none hfs)] at hcloses
  | plus | minus =>
      -- the other signs bind less tightly than a factorial, and are applied when the bracket closes
      have hcloses := h.closes false (habove Unary.noConfusion) (List.forall_mem_cons.2 ⟨rfl, hproper⟩) hstarts
      rwa [unwind, if_pos rfl, unwind_eq_self (forall_operator_of_eq_none hfs)] at hcloses

/-- In brackets a chain is one value. -/
theorem ReadsChainInside.group (h : ReadsChainInside u (o :: os) ts) (ho : o.isSign = true) :
    ReadsChain u (o :: os) (.mark .openRound :: ts ++ [.mark .closeRound]) := by
  intro waits fs previous hfs hproper hprevious
  obtain ⟨a, hrun, hcloses⟩ := h (.group :: waiting waits fs) (some (.mark .openRound))
    (by simp [operator?]) (List.forall_mem_cons.2 ⟨trivial, isProper_waiting hproper waits⟩) rfl
  refine ⟨_, waits, asRead false (o :: os), ?_, .value _, ?_⟩
  · rw [List.cons_append, Arrangement.run_cons_of_step (step_openRound hprevious)]
    exact Arrangement.run_snoc hrun (closeRound_group hcloses)
  · cases o with
    | factorial => cases ho
    | plus | minus | not => simp [asRead, held]

end Frame

/-! ### Writing a chain -/

namespace Unary

/-- The operator with its written operand. -/
def attach (o : Unary) (text : String) : String :=
  if o.isSign then Tree.unaryText o.operator.symbol ++ text
  else text ++ Tree.unaryText o.operator.symbol

open Token (ReadsBetween Expects HasEnded)

theorem readsBetween_sign {o : Unary} (ho : o.isSign = true) {Q : List Char → Prop} :
    ReadsBetween Expects (Tree.unaryText o.operator.symbol).toList [.op o.operator] Q := by
  have hop {previous : Option Token} (h : Expects previous) (symbol : String) :
      Token.ofLexeme previous (.operator symbol) = [.op (.ofSymbol true symbol)] := by
    rw [Token.ofLexeme, show Token.expectsValue previous = true from h]
  cases o with
  | factorial => cases ho
  | plus =>
      exact Token.readsBetween_of_stands (l := .operator "+") rfl (fun _ _ => .sign rfl rfl) fun _ h => hop h "+"
  | minus =>
      exact Token.readsBetween_of_stands (l := .operator "-") rfl (fun _ _ => .sign rfl rfl) fun _ h => hop h "-"
  | not =>
      have hnot : ReadsBetween Expects ['n', 'o', 't'] [.op Unary.not.operator] (·.head? = some ' ') := by
        refine Token.readsBetween_of_stands (l := .operator "not") rfl (fun tail htail => ?_) fun _ h => hop h "not"
        have hends : Lexeme.EndsWord tail := by
          rintro c hc
          cases htail.symm.trans hc
          rfl
        have hword : "not" ∈ Lexeme.operatorWords := by decide
        have hstands : Lexeme.Stands _ ['n', 'o', 't'] tail :=
          .word hword (.cons rfl (.cons rfl (.cons rfl .nil))) hends
        rwa [show Text.lower (String.ofList ['n', 'o', 't']) = "not" by decide +kernel] at hstands
      exact hnot.append (Token.readsBetween_blank (P := fun _ => True)) (fun _ _ => trivial) fun _ _ => rfl

theorem readsBetween_factorial {Q : List Char → Prop} :
    ReadsBetween HasEnded (Tree.unaryText factorial.operator.symbol).toList [.op .factorial] Q :=
  Token.readsBetween_of_stands (l := .operator "!") rfl (fun _ _ => .sign rfl rfl) fun _ h => by
    rw [Token.ofLexeme, show Token.expectsValue _ = false from h]
    rfl

end Unary

namespace Tree

variable {settings : Settings} {x t u : Tree} {text : String} {ts : List Token} {o : Unary} {os : List Unary}

/-- How a chain is written: an operand that is a sign is bracketed. -/
theorem source_unary {binding : Option Binding} (htext : t.source settings = .ok text)
    (hbinding : Binding.ofTree settings.orExact t = .ok binding) :
    (applied [o] t).source settings =
      .ok (o.attach (if Binding.needsBrackets o.operator.symbol 1 0 binding then bracketed text else text)) := by
  have htext : t.sourceWith settings.orExact = .ok text := htext
  rw [applied_cons, applied_nil, Tree.source, sourceWith, sourcesWith, sourcesWith, htext]
  have hoperands : operands settings.orExact o.operator.symbol [t] [text] = .ok
      [if Binding.needsBrackets o.operator.symbol 1 0 binding then bracketed text else text] := by
    rw [operands, show ([t].zip [text]).zipIdx = [((t, text), 0)] from rfl, List.mapM_cons, List.mapM_nil]
    dsimp only
    rw [hbinding]
    rfl
  change sourceOfOperator settings.orExact o.operator [t] [text] = _
  rw [sourceOfOperator, hoperands]
  cases o <;> rfl

theorem needsBrackets_sign (o o' : Unary) :
    Binding.needsBrackets o.operator.symbol 1 0
      (some ⟨o'.operator.symbol, Operator.isSign o'.operator.symbol⟩) = o'.isSign := by
  cases o <;> cases o' <;> decide

/-- A text is read as a chain over a value directly inside any bracket. -/
structure IsChainText (u : Tree) (os : List Unary) (text : String) (ts : List Token) : Prop where
  trimmed : Text.IsTrimmed text.toList
  tokens : HasTokens text ts
  last : ∃ tok, ts.getLast? = some tok ∧ Token.HasEnded (some tok)
  inside : Frame.ReadsChainInside u os ts

/-- Signs are written before their operand. -/
theorem isChainText_sign (h : IsChainText u os text ts) (hreads : Frame.ReadsChain u os ts)
    (ho : o.isSign = true) : IsChainText u (o :: os) (o.attach text) (.op o.operator :: ts) := by
  obtain ⟨tok, hlast, hended⟩ := h.last
  rw [Unary.attach, if_pos ho]
  refine ⟨?_, ?_, ⟨tok, ?_, hended⟩, hreads.sign ho⟩
  · rw [String.toList_append]
    refine h.trimmed.append_of_head ?_
    rintro c hc
    cases o with
    | factorial => cases ho
    | plus | minus | not =>
        cases hc
        decide
  · have htokens := (Unary.readsBetween_sign ho (Q := fun _ => True)).append h.tokens
      (fun _ _ => by cases o <;> first | rfl | cases ho) fun _ _ => trivial
    simpa [HasTokens] using htokens
  · rw [List.getLast?_cons, hlast]
    rfl

/-- Factorials are written after their operand. -/
theorem isChainText_factorial (h : IsChainText u os text ts) (hreads : Frame.ReadsChain u os ts) :
    IsChainText u (.factorial :: os) (Unary.factorial.attach text) (ts ++ [.op .factorial]) := by
  obtain ⟨tok, hlast, hended⟩ := h.last
  refine ⟨?_, ?_, ⟨_, List.getLast?_concat, rfl⟩, hreads.factorial.inside⟩
  · rw [Unary.attach, if_neg (by decide), String.toList_append]
    refine h.trimmed.append_of_last ?_
    rintro c hc
    cases hc
    decide
  · have htokens := h.tokens.append (Unary.readsBetween_factorial (Q := Lexeme.Delimits))
      (fun _ _ => by rw [hlast]; exact hended) fun tail _ => by rintro d ⟨⟩; decide
    rw [HasTokens, Unary.attach, if_neg (by decide), String.toList_append]
    exact htokens

/-- A chain is written, and what is written is read as a chain. Before its operand a sign stands in brackets. -/
theorem exists_isChainText {x : Tree} (h : IsPiece settings x text ts u) (os : List Unary) :
    (∃ text ts, (applied os x).source settings = .ok text ∧ IsChainText u os text ts) ∧
      ∃ text ts, (∀ o, (applied (o :: os) x).source settings = .ok (o.attach text)) ∧
        IsChainText u os text ts ∧ Frame.ReadsChain u os ts := by
  induction os with
  | nil =>
      have hreads := Frame.readsChain_nil h.toIsClosed
      obtain ⟨tok, hlast, hended, -⟩ := h.last
      have htext : IsChainText u [] text ts := ⟨h.trimmed, h.reads, ⟨tok, hlast, hended⟩, hreads.inside⟩
      refine ⟨⟨text, ts, h.source, htext⟩, text, ts, fun o => ?_, htext, hreads⟩
      have hsource := source_unary (o := o) h.source h.binding
      exact hsource
  | cons o os ih =>
      obtain ⟨-, text', ts', hsource, htext, hreads⟩ := ih
      have hbinding : Binding.ofTree settings.orExact (applied (o :: os) x) =
          .ok (some ⟨o.operator.symbol, Operator.isSign o.operator.symbol⟩) := rfl
      have houter (o' : Unary) := source_unary (o := o') (hsource o) hbinding
      cases ho : o.isSign with
      | true =>
          have hchain := isChainText_sign htext hreads ho
          obtain ⟨tok, hlast, hended, -⟩ := last_closing (.inl rfl) (.mark .openRound :: .op o.operator :: ts')
          have hreads := hchain.inside.group ho
          refine ⟨⟨_, _, hsource o, hchain⟩, _, _, fun o' => ?_,
            ⟨isTrimmed_bracketed _, hasTokens_bracketed hchain.tokens, ⟨tok, hlast, hended⟩, hreads.inside⟩, hreads⟩
          have houter := houter o'
          rw [needsBrackets_sign, ho, if_pos rfl] at houter
          exact houter
      | false =>
          obtain rfl : o = .factorial := by
            cases o with
            | factorial => rfl
            | plus | minus | not => cases ho
          have hchain := isChainText_factorial htext hreads
          refine ⟨⟨_, _, hsource _, hchain⟩, _, _, fun o' => ?_, hchain, hreads.factorial⟩
          have houter := houter o'
          rw [needsBrackets_sign, ho, if_neg Bool.false_ne_true] at houter
          exact houter

/-- Source text without blanks around it has the tree of its tokens. -/
theorem ofSource_of_tokens (htext : Text.IsTrimmed text.toList) (h : Token.ofSource text = .ok ts) :
    ofSource text = ofTokens (fun _ => false) ts := by
  have hstrip : Text.strip text = text := by
    rw [Text.strip, htext.stripChars_eq, String.ofList_toList]
  have hne : ¬text.isEmpty = true := fun hempty =>
    htext.ne_nil (by rw [String.isEmpty_iff.1 hempty]; rfl)
  simp only [ofSource, ofSourceIn, hstrip, hne, h]
  rfl

/-- What is written for a chain is read as the chain of its operators in the order in which they are read. -/
theorem IsChainText.ofSource (h : IsChainText u os text ts) :
    Tree.ofSource text = .ok (some (applied (Unary.asRead false os) u)) := by
  obtain ⟨a, hrun, hcloses⟩ := h.inside [] none nofun nofun rfl
  have htokens : Token.ofSource text = .ok ts := by
    obtain ⟨ls, hread, hts⟩ := h.tokens
    have hscan := hread (show Lexeme.Delimits [] from nofun) Lexeme.scan_nil
    rw [List.append_nil, List.append_nil] at hscan
    rw [Token.ofSource, hscan, ← hts none rfl]
    rfl
  rw [ofSource_of_tokens h.trimmed htokens, ofTokens, withProducts_of_no_variable,
    show Arrangement.empty = Frame.arrange [] from rfl, hrun]
  change a.finish.mapError Failure.error = _
  rw [Frame.finish_of_closes hcloses]
  rfl

/-- **Chains of unary operators.** What is written for a chain over an operand can be read, and is read as an
equal tree exactly if no `not` is applied to a factorial. -/
theorem ofSource_applied {x : Tree} (hx : x.IsOperand settings) (os : List Unary) :
    ∃ text u, (applied os x).source settings = .ok text ∧ ofSource text = .ok (some u) ∧
      ((applied os x).eqv u = true ↔ Unary.IsClear os) := by
  obtain ⟨text, ts, v, hpiece⟩ := hx.exists_isPiece
  obtain ⟨⟨text, ts, hsource, htext⟩, -⟩ := exists_isChainText hpiece os
  refine ⟨text, _, hsource, htext.ofSource, ?_⟩
  have hlength : os.length = (Unary.asRead false os).length := by
    rw [Unary.length_asRead]
    exact (Nat.zero_add _).symm
  rw [eqv_applied_iff hpiece.eqv hlength, eq_comm]
  exact Unary.asRead_eq_iff false os

/-- Signs and factorials of a call. -/
theorem ofSource_applied_call :
    let t := applied [.minus, .factorial, .factorial, .not, .plus]
      (node (.call "f") [.leaf (.name "y" []), .leaf (.number (.real 2))])
    ∃ text u, t.source {} = .ok text ∧ ofSource text = .ok (some u) ∧ t.eqv u = true := by
  have hy : (leaf (.name "y" [])).ReadsBack {} :=
    ⟨"y", [.name "y" []], .leaf (.name "y" []), rfl, by decide +kernel, by decide +kernel, rfl, rfl⟩
  have htwo : (leaf (.number (.real 2))).ReadsBack {} :=
    ⟨"2", [.number (.real 2)], .leaf (.number (.real 2)), by decide +kernel, by decide +kernel,
      by decide +kernel, rfl, by decide +kernel⟩
  have hx : (node (.call "f") [.leaf (.name "y" []), .leaf (.number (.real 2))]).IsOperand {} :=
    .call (by decide +kernel) (by decide +kernel) (.inl (by decide)) (by simp [hy, htwo])
  intro t
  obtain ⟨text, u, hsource, hread, heqv⟩ := ofSource_applied hx [.minus, .factorial, .factorial, .not, .plus]
  exact ⟨text, u, hsource, hread, heqv.2 (by unfold Unary.IsClear; decide)⟩

/-- What is written for a `not` of a factorial is read as a factorial. -/
theorem ofSource_notFactorial :
    let x := leaf (.name "x" [])
    let t := applied [.not, .factorial] x
    let u := applied [.factorial, .not] x
    t.source {} = .ok "not x!" ∧ ofSource "not x!" = .ok (some u) ∧ t.eqv u = false := by
  have htokens : Token.ofSource "not x!" =
      .ok [.op Unary.not.operator, .name "x" [], .op .factorial] := by decide +kernel
  refine ⟨rfl, ?_, rfl⟩
  rw [ofSource_of_tokens ⟨⟨'n', rfl, rfl⟩, ⟨'!', rfl, rfl⟩⟩ htokens]
  rfl

end Tree

end MathExpr
