import Mathlib.Data.List.Basic
import MathExpr.Proofs.Leaves
import MathExpr.Tree.OfTokens

/-!
# Brackets and what goes wrong while text is read

Reading source text ends with a tree, with nothing for a blank text, or with an error of the lexer
or the parser. The one exception is a closing bracket that meets an opening bracket of the other
shape, as in `(x]`. Which brackets are open can be told from the tokens alone
(`Token.bracketsAfter`), so that the tokens alone say where the exception can arise
(`Token.HasClash`): reading breaks down nowhere else
(`Tree.ofSourceIn_returns_or_reports`), and tokens with such a bracket never have a tree.
-/

namespace MathExpr

/-! ### Results and errors with a property -/

section

variable {ε ε' α β : Type} {P : α → Prop} {Q : ε → Prop}

/-- A result has one property, and an error another. -/
def Ends (P : α → Prop) (Q : ε → Prop) : Except ε α → Prop
  | .ok a => P a
  | .error e => Q e

@[simp] theorem ends_ok {a : α} : Ends P Q (.ok a) ↔ P a := Iff.rfl

@[simp] theorem ends_error {e : ε} : Ends P Q (.error e) ↔ Q e := Iff.rfl

theorem Ends.bind {P' : β → Prop} {x : Except ε α} {f : α → Except ε β} (hx : Ends P Q x)
    (hf : ∀ a, P a → Ends P' Q (f a)) : Ends P' Q (x >>= f) := by
  cases x with
  | ok a => exact hf a hx
  | error e => exact hx

theorem Ends.mapError {Q' : ε' → Prop} {x : Except ε α} {f : ε → ε'} (hx : Ends P Q x)
    (hf : ∀ e, Q e → Q' (f e)) : Ends P Q' (x.mapError f) := by
  cases x with
  | ok a => exact hx
  | error e => exact hf e hx

theorem Ends.imp {P' : α → Prop} {Q' : ε → Prop} {x : Except ε α} (hx : Ends P Q x)
    (hP : ∀ a, P a → P' a) (hQ : ∀ e, Q e → Q' e) : Ends P' Q' x := by
  cases x with
  | ok a => exact hP a hx
  | error e => exact hQ e hx

end

/-! ### The brackets of tokens -/

namespace Token

/-- The opening bracket that a token opens, given the token before it. A function opens its
bracket. -/
def opens (previous : Option Token) : Token → Option Mark
  | function _ => some .openRound
  | mark .openRound =>
    match previous with
    | some (function _) => none
    | _ => some .openRound
  | mark .openSquare => some .openSquare
  | _ => none

/-- The opening bracket that a token closes. -/
def closes : Token → Option Mark
  | mark .closeRound => some .openRound
  | mark .closeSquare => some .openSquare
  | _ => none

/-- The brackets that are open after one more token, innermost first, or nothing if the token closes
a bracket that is not the innermost one. -/
def bracketsAfter (previous : Option Token) (unclosed : List Mark) (t : Token) :
    Option (List Mark) :=
  match t.closes with
  | none => some ((t.opens previous).toList ++ unclosed)
  | some b =>
    match unclosed with
    | [] => none
    | b' :: rest => if b = b' then some rest else none

/-- A token closes a bracket of one shape, and the innermost open bracket has the other. -/
def Clashes (unclosed : List Mark) (t : Token) : Prop :=
  ∃ b b' rest, t.closes = some b ∧ unclosed = b' :: rest ∧ b ≠ b'

/-- Some closing bracket among the tokens meets an open bracket of the other shape, and all brackets
closed before are closed by their own shape. -/
def HasClash (previous : Option Token) (unclosed : List Mark) : List Token → Prop
  | [] => False
  | t :: ts => Clashes unclosed t ∨
    ∃ next, bracketsAfter previous unclosed t = some next ∧ HasClash (some t) next ts

/-- Where a token clashes no brackets are open after it. -/
theorem Clashes.bracketsAfter {previous : Option Token} {unclosed : List Mark} {t : Token}
    (h : Clashes unclosed t) : bracketsAfter previous unclosed t = none := by
  obtain ⟨b, b', rest, hcloses, rfl, hne⟩ := h
  simp [Token.bracketsAfter, hcloses, hne]

end Token

/-! ### The brackets of an arrangement -/

/-- The opening bracket that waits on the stack. -/
def Pending.bracket? : Pending → Option Mark
  | op _ => none
  | group | call .. => some .openRound
  | square .. => some .openSquare

namespace Arrangement

variable {P : Arrangement → Prop}

/-- The brackets that are open in an arrangement, innermost first. -/
def brackets (a : Arrangement) : List Mark := a.stack.filterMap Pending.bracket?

/-- An error of the parser. -/
abbrev IsParsing (e : Error) : Prop := e.category = .parsing

/-- What goes wrong is an error of the parser, or a breakdown at a clash of brackets. -/
def Reported (clash : Prop) : Failure → Prop
  | .error e => IsParsing e
  | .fault f => f = .mismatchedBracket ∧ clash

theorem Reported.imp {clash clash' : Prop} (h : clash → clash') {f : Failure}
    (hf : Reported clash f) : Reported clash' f := by
  cases f with
  | error e => exact hf
  | fault f => exact ⟨hf.1, h hf.2⟩

theorem Reported.of_parsing {clash : Prop} {α : Type} {P : α → Prop} {x : Except Error α}
    (h : Ends P IsParsing x) : Ends P (Reported clash) (x.mapError .error) :=
  h.mapError fun _ he => he

theorem ends_combine (head : Head) (label : String) (n : Nat) (output : List Tree) :
    Ends (fun _ => True) IsParsing (combine head label n output) := by
  unfold combine
  split
  · rfl
  · trivial

/-- Applying operators leaves the brackets as they are, and stops at a bracket or at an operator that
is not ready. -/
theorem ends_applyWhile (isReady : Operator → Bool) (stack : List Pending) (output : List Tree) :
    Ends (fun a => a.brackets = stack.filterMap Pending.bracket? ∧
        ∀ o, a.stack.head? = some (.op o) → isReady o = false)
      IsParsing (applyWhile isReady stack output) := by
  fun_induction applyWhile isReady stack output with
  | case1 output o stack hready ih => exact (ends_combine ..).bind fun output' _ => ih output'
  | case2 output o stack hready =>
      refine ⟨rfl, fun o' ho' => ?_⟩
      cases ho'
      exact Bool.eq_false_iff.2 hready
  | case3 stack output hop =>
      refine ⟨rfl, fun o ho => ?_⟩
      obtain ⟨rest, rfl⟩ := List.head?_eq_some_iff.1 ho
      exact (hop o rest rfl).elim

/-- Applying all operators brings the innermost bracket to the top of the stack. -/
theorem ends_applyAll (a : Arrangement) :
    Ends (fun a' => a'.brackets = a.brackets ∧ ∀ o, a'.stack.head? ≠ some (.op o)) IsParsing
      a.applyAll :=
  (ends_applyWhile (fun _ => true) a.stack a.output).imp
    (fun _ ha => ⟨ha.1, fun o ho => nomatch ha.2 o ho⟩) fun _ he => he

theorem ends_operator (o : Operator) (a : Arrangement) :
    Ends (fun a' => a'.brackets = a.brackets) IsParsing (a.operator o) := by
  unfold operator
  split
  · rfl
  · exact (ends_applyWhile (yieldsTo o) a.stack a.output).bind fun _ ha => ha.1

/-- A comma leaves the brackets as they are. -/
theorem ends_comma (a : Arrangement) :
    Ends (fun a' => a'.brackets = a.brackets) IsParsing a.comma := by
  refine (ends_applyAll a).bind fun b hb => ?_
  rw [← hb.1]
  split
  -- The bracket in which the comma is counted goes back to the top of the stack.
  · rename_i hstack
    simp only [brackets, hstack]
    rfl
  · rename_i hstack
    simp only [brackets, hstack]
    rfl
  · rfl

/-- A closing round bracket closes the innermost bracket, which has to be round. -/
theorem ends_closeRound (a : Arrangement) :
    Ends (fun a' => a.brackets = .openRound :: a'.brackets)
      (Reported (∃ rest, a.brackets = .openSquare :: rest)) a.closeRound := by
  refine (Reported.of_parsing (ends_applyAll a)).bind fun ⟨stack, output⟩ ⟨hbrackets, htop⟩ => ?_
  rw [← hbrackets]
  cases stack with
  | nil => rfl
  | cons p stack =>
      cases p with
      | op o => exact (htop o rfl).elim
      | group => rfl
      | call name start commas =>
          exact (Reported.of_parsing (ends_combine ..)).bind fun _ _ => rfl
      | square isIndex start commas => exact ⟨rfl, _, rfl⟩

/-- A closing square bracket closes the innermost bracket, which has to be square. -/
theorem ends_closeSquare (a : Arrangement) :
    Ends (fun a' => a.brackets = .openSquare :: a'.brackets)
      (Reported (∃ rest, a.brackets = .openRound :: rest)) a.closeSquare := by
  refine (Reported.of_parsing (ends_applyAll a)).bind fun ⟨stack, output⟩ ⟨hbrackets, htop⟩ => ?_
  rw [← hbrackets]
  cases stack with
  | nil => rfl
  | cons p stack =>
      cases p with
      | op o => exact (htop o rfl).elim
      | group | call => exact ⟨rfl, _, rfl⟩
      | square isIndex start commas =>
          dsimp only
          split
          · split
            · exact (Reported.of_parsing (ends_combine ..)).bind fun _ _ => rfl
            · rfl
          · exact (Reported.of_parsing (ends_combine ..)).bind fun _ _ => rfl

/-- One token changes the open brackets as the token alone says. -/
theorem ends_step (previous : Option Token) (a : Arrangement) (t : Token) :
    Ends (fun a' => Token.bracketsAfter previous a.brackets t = some a'.brackets)
      (Reported (Token.Clashes a.brackets t)) (a.step previous t) := by
  cases t with
  | number | text | boolean | name | function => rfl
  | op o =>
      exact Reported.of_parsing ((ends_operator o a).imp (fun _ ha => congrArg some ha.symm) fun _ he => he)
  | mark m =>
      cases m with
      | openRound => rcases previous with _ | (_ | _ | _ | _ | _ | _ | _) <;> rfl
      | openSquare => rfl
      | comma =>
          exact Reported.of_parsing ((ends_comma a).imp (fun _ ha => congrArg some ha.symm) fun _ he => he)
      | closeRound =>
          refine (ends_closeRound a).imp (fun a' ha => ?_) fun f hf => ?_
          · simp [Token.bracketsAfter, Token.closes, ha]
          · exact hf.imp fun ⟨rest, hrest⟩ => ⟨_, _, rest, rfl, hrest, by decide⟩
      | closeSquare =>
          refine (ends_closeSquare a).imp (fun a' ha => ?_) fun f hf => ?_
          · simp [Token.bracketsAfter, Token.closes, ha]
          · exact hf.imp fun ⟨rest, hrest⟩ => ⟨_, _, rest, rfl, hrest, by decide⟩

/-- A list of tokens is arranged if its brackets never clash. -/
theorem ends_run (previous : Option Token) (a : Arrangement) (ts : List Token) :
    Ends (fun _ => ¬Token.HasClash previous a.brackets ts)
      (Reported (Token.HasClash previous a.brackets ts)) (a.run previous ts) := by
  induction ts generalizing previous a with
  | nil => exact id
  | cons t ts ih =>
      have hstep := ends_step previous a t
      unfold run
      cases hresult : a.step previous t with
      | error f =>
          rw [hresult] at hstep
          exact Reported.imp .inl hstep
      | ok a' =>
          rw [hresult] at hstep
          -- The token closes its own bracket, so that a clash can only come later.
          have hclash : Token.HasClash previous a.brackets (t :: ts) ↔
              Token.HasClash (some t) a'.brackets ts := by
            refine ⟨fun h => ?_, fun h => .inr ⟨_, hstep, h⟩⟩
            rcases h with h | ⟨next, hnext, h⟩
            · cases h.bracketsAfter.symm.trans hstep
            · cases hnext.symm.trans hstep
              exact h
          rw [hclash]
          exact ih (some t) a'

/-- Errors of the parser are all that can go wrong when the tokens have ended. -/
theorem ends_finish (a : Arrangement) : Ends (fun _ => True) IsParsing a.finish := by
  refine (ends_applyAll a).bind fun ⟨stack, output⟩ ⟨_, htop⟩ => ?_
  rcases stack with _ | ⟨_ | _ | _ | _, stack⟩
  · rcases output with _ | ⟨t, _ | ⟨u, output⟩⟩
    · trivial
    · trivial
    · rfl
  all_goals rfl

end Arrangement

theorem Lexeme.ends_scan (cs : List Char) :
    Ends (fun _ => True) (fun e => e.category = .lexical) (scan cs) := by
  fun_induction scan cs with
  | case1 => trivial
  | case2 c rest _ ih => exact ih
  | case3 => rfl
  | case4 c rest _ lexeme n hrecognise ih => exact ih.bind fun _ _ => trivial

theorem Token.ends_ofSource (source : String) :
    Ends (fun _ => True) (fun e => e.category = .lexical) (ofSource source) :=
  (Lexeme.ends_scan source.toList).bind fun _ _ => trivial

namespace Tree

/-- Tokens are read as a tree only where no brackets clash, and reading breaks down only where some
do. -/
theorem ends_ofTokens (isVariable : String → Bool) (ts : List Token) :
    Ends (fun _ => ¬Token.HasClash none [] (withProducts isVariable ts))
      (Arrangement.Reported (Token.HasClash none [] (withProducts isVariable ts)))
      (ofTokens isVariable ts) := by
  refine (Arrangement.ends_run none .empty _).bind fun a ha => ?_
  exact (Arrangement.Reported.of_parsing (Arrangement.ends_finish a)).imp (fun _ _ => ha) fun _ hf => hf

/-- Source text is read as a tree or as nothing, or with an error of the lexer or the parser. Reading
breaks down only where the tokens have a closing bracket that meets an open bracket of the other shape,
and such tokens are never read as a tree. -/
theorem ofSourceIn_returns_or_reports (isVariable : String → Bool) (source : String) :
    (∃ t, ofSourceIn isVariable source = .ok t ∧
      ∀ ts, Token.ofSource (Text.strip source) = .ok ts →
        ¬Token.HasClash none [] (withProducts isVariable ts)) ∨
    (∃ e, ofSourceIn isVariable source = .error (.error e) ∧
      (e.category = .lexical ∨ e.category = .parsing)) ∨
    (ofSourceIn isVariable source = .error (.fault .mismatchedBracket) ∧
      ∃ ts, Token.ofSource (Text.strip source) = .ok ts ∧
        Token.HasClash none [] (withProducts isVariable ts)) := by
  by_cases hblank : (Text.strip source).isEmpty = true
  · -- A blank text has no tokens.
    refine .inl ⟨none, by simp only [ofSourceIn, hblank, if_true]; rfl, ?_⟩
    have hnone : Token.ofSource (Text.strip source) = .ok [] := by
      rw [String.isEmpty_iff.1 hblank]
      decide +kernel
    simp [hnone, withProducts, Token.HasClash]
  · have hlexical := Token.ends_ofSource (Text.strip source)
    cases hts : Token.ofSource (Text.strip source) with
    | error e =>
        rw [hts] at hlexical
        refine .inr (.inl ⟨e, ?_, .inl hlexical⟩)
        simp only [ofSourceIn, hblank, hts]
        rfl
    | ok ts =>
        have hread : ofSourceIn isVariable source = ofTokens isVariable ts := by
          simp only [ofSourceIn, hblank, hts]
          rfl
        have htree := ends_ofTokens isVariable ts
        rw [hread]
        rcases hresult : ofTokens isVariable ts with (e | f) | t
        · rw [hresult] at htree
          exact .inr (.inl ⟨e, rfl, .inr htree⟩)
        · rw [hresult] at htree
          obtain ⟨rfl, hclash⟩ := htree
          exact .inr (.inr ⟨rfl, ts, rfl, hclash⟩)
        · rw [hresult] at htree
          exact .inl ⟨t, rfl, fun ts' hts' => Except.ok.inj hts' ▸ htree⟩

/-- A round bracket that a square bracket closes is not reported as an error. -/
theorem not_forall_ofSource_returns_or_reports :
    ¬∀ source, (∃ t, ofSource source = .ok t) ∨ ∃ e, ofSource source = .error (.error e) := by
  intro h
  have hts : Token.ofSource (Text.strip "(x]") =
      .ok [.mark .openRound, .name "x" [], .mark .closeSquare] := by decide +kernel
  have hblank : (Text.strip "(x]").isEmpty = false := by decide +kernel
  have hbreaks : ofSource "(x]" = .error (.fault .mismatchedBracket) := by
    simp only [ofSource, ofSourceIn, hblank, hts]
    rfl
  rcases h "(x]" with ⟨t, ht⟩ | ⟨e, he⟩
  · cases hbreaks.symm.trans ht
  · cases hbreaks.symm.trans he

end Tree

end MathExpr
