import MathExpr.Proofs.Frames
import MathExpr.Proofs.Scanning

/-!
# Accepted expressions are infix expressions

While tokens are arranged, brackets are matched and arguments counted, but of values it is
only counted how many there are, not where they stand. If values and operators take turns
(`Turn.next`), then this is enough: a list of tokens in which they do, and that is accepted,
is an infix expression of its tree (`Turn.spells_of_ofTokens`).

Without turns it is not: two texts with an operator after them are accepted as if the
operator stood between them (`Tree.not_reads_twoTexts`).

The proof goes token by token. `Turn.Stands` relates the turn and the tokens that have been
read to the arrangement they have left.
-/

namespace MathExpr

/-- What may come next in an infix expression. -/
inductive Turn where
  /-- A value, or an operator before one. -/
  | value
  /-- The bracket of a call. -/
  | bracket
  /-- The first argument of a call, if it has any. -/
  | argument
  /-- The first element of a list, if it has any. -/
  | element
  /-- What may follow a value. -/
  | operator
  /-- What may follow a value and an operator after it. -/
  | marked (o : Operator)
  deriving DecidableEq

namespace Turn

open Arrangement (yieldsTo)

/-- The turn after a token with which a value begins. -/
def begin : Token → Option Turn
  | .number _ | .text _ | .boolean _ | .name .. => some operator
  | .op o => if o.place = .before ∧ Operator.arity o.symbol = 1 then some value else none
  | .function _ => some bracket
  | .mark .openRound => some value
  | .mark .openSquare => some element
  | .mark _ => none

/-- The turn after an operator that follows a value. -/
def follow (o : Operator) : Option Turn :=
  match o.place with
  | .before => none
  | .between => if Operator.arity o.symbol = 2 then some value else none
  | .after => if Operator.arity o.symbol = 1 then some (marked o) else none

/-- The turn after a token that ends what is before it. -/
def close : Token → Option Turn
  | .mark .closeRound | .mark .closeSquare => some operator
  | .mark .comma => some value
  | _ => none

/-- The turn after one more token, if it may be taken. An operator that binds more tightly than an
operator after a value may not follow that. -/
def next : Turn → Token → Option Turn
  | value, t => begin t
  | bracket, t => if t = .mark .openRound then some argument else none
  | argument, t => if t = .mark .closeRound then some operator else begin t
  | element, t => if t = .mark .closeSquare then some operator else begin t
  | operator, .op o => follow o
  | operator, .mark .openSquare => some value
  | operator, t => close t
  | marked o, .op o' => if yieldsTo o' o then follow o' else none
  | marked _, t => close t

/-- The turn after a list of tokens. -/
def after (turn : Turn) : List Token → Option Turn
  | [] => some turn
  | t :: ts => (turn.next t).bind fun turn => turn.after ts

/-- Whether an expression may end. -/
def isEnd : Turn → Bool
  | operator | marked _ => true
  | _ => false

/-! ### One token -/

/-- The arrangement that some tokens leave, by what may come next. -/
inductive Stands : Turn → Option Token → Arrangement → List Token → Prop
  | value {fs : List Frame} {ts : List Token} {previous : Option Token}
      (hopens : Frame.Opens fs ts) (hprevious : Arrangement.startsList previous = true) :
      Stands value previous (Frame.arrange fs) ts
  | bracket {fs : List Frame} {ts : List Token} {name : String} (hopens : Frame.Opens fs ts) :
      Stands bracket (some (.function name)) (Frame.arrange (.call name [] :: fs))
        (ts ++ [.function name])
  | argument {fs : List Frame} {ts : List Token} {name : String} (hopens : Frame.Opens fs ts) :
      Stands argument (some (.mark .openRound)) (Frame.arrange (.call name [] :: fs))
        (ts ++ [.function name, .mark .openRound])
  | element {fs : List Frame} {ts : List Token} (hopens : Frame.Opens fs ts) :
      Stands element (some (.mark .openSquare)) (Frame.arrange (.list [] :: fs))
        (ts ++ [.mark .openSquare])
  | operator {fs : List Frame} {t : Tree} {ts us : List Token} {previous : Option Token}
      (hopens : Frame.Opens fs ts) (ht : t.Spells us)
      (hprevious : Arrangement.startsList previous = false) :
      Stands operator previous (Frame.hold fs t) (ts ++ us)
  | marked {fs : List Frame} {t : Tree} {o : Operator} {ts us : List Token}
      (hopens : Frame.Opens fs ts) (ht : t.Spells us) (ho : o.place = .after)
      (harity : Operator.arity o.symbol = 1) :
      Stands (marked o) (some (.op o)) (Frame.mark fs t o) (ts ++ us ++ [.op o])

/-- The tokens are what has opened some frames and then a value that has ended in them, once
the operators that wait are applied. -/
def Ended (a : Arrangement) (ts : List Token) : Prop :=
  ∃ fs t us vs, Frame.Closes a fs t ∧ (∀ f ∈ fs.head?, f.operator? = none) ∧
    Frame.Opens fs us ∧ t.Spells vs ∧ us ++ vs = ts

variable {turn turn' : Turn} {previous : Option Token} {a a' : Arrangement} {fs : List Frame}
  {t : Tree} {ts us : List Token} {tok : Token} {o : Operator}

theorem ended_hold (hopens : Frame.Opens fs ts) (ht : t.Spells us) :
    Ended (Frame.hold fs t) (ts ++ us) := by
  obtain ⟨ts', us', hopens', ht', htokens⟩ := hopens.unwind ht fun _ => true
  exact ⟨_, _, ts', us', Frame.closes_hold hopens.isProper t, Frame.operator?_unwind_all fs t,
    hopens', ht', htokens⟩

theorem ended_mark (hopens : Frame.Opens fs ts) (ht : t.Spells us) (ho : o.place = .after)
    (harity : Operator.arity o.symbol = 1) :
    Ended (Frame.mark fs t o) (ts ++ us ++ [.op o]) := by
  obtain ⟨ts', us', hopens', ht', htokens⟩ :=
    hopens.unwind (ht.after ho) fun _ => true
  exact ⟨_, _, ts', us', Frame.closes_mark hopens.isProper t harity,
    Frame.operator?_unwind_all fs _, hopens', ht', by rw [htokens, List.append_assoc]⟩

/-- Where a value may begin, what begins it is taken. -/
theorem stands_begin (hopens : Frame.Opens fs ts)
    (hprevious : Arrangement.startsList previous = true) (hturn : begin tok = some turn) :
    ∃ a', (Frame.arrange fs).step previous tok = .ok a' ∧
      Stands turn (some tok) a' (ts ++ [tok]) := by
  cases tok with
  | number n =>
      cases hturn
      exact ⟨_, rfl, .operator hopens (.number n) rfl⟩
  | text s =>
      cases hturn
      exact ⟨_, rfl, .operator hopens (.text s) rfl⟩
  | boolean b =>
      cases hturn
      exact ⟨_, rfl, .operator hopens (.boolean b) rfl⟩
  | name s hints =>
      cases hturn
      exact ⟨_, rfl, .operator hopens (.name s hints) rfl⟩
  | op o =>
      by_cases ho : o.place = .before ∧ Operator.arity o.symbol = 1
      · rw [begin, if_pos ho] at hturn
        cases hturn
        exact ⟨_, Frame.step_before ho.1, .value (hopens.before ho.1 ho.2) rfl⟩
      · rw [begin, if_neg ho] at hturn
        cases hturn
  | function name =>
      cases hturn
      exact ⟨_, rfl, .bracket hopens⟩
  | mark m =>
      cases m with
      | openRound =>
          cases hturn
          exact ⟨_, Frame.step_openRound hprevious, .value hopens.group rfl⟩
      | openSquare =>
          cases hturn
          exact ⟨_, Frame.step_openSquare hprevious, .element hopens⟩
      | closeRound | closeSquare | comma => cases hturn

/-- A bracket that closes, or a comma, fits the innermost bracket if it is taken. -/
theorem stands_close (hended : Ended a ts) (hturn : close tok = some turn)
    (hstep : a.step previous tok = .ok a') : Stands turn (some tok) a' (ts ++ [tok]) := by
  obtain ⟨fs, t, us, vs, hcloses, hhead, hopens, ht, rfl⟩ := hended
  cases tok with
  | number | text | boolean | name | op | function => cases hturn
  | mark m =>
      cases m with
      | openRound | openSquare => cases hturn
      | closeRound =>
          cases hturn
          change a.closeRound = _ at hstep
          cases hopens with
          | before | between => cases hhead _ rfl
          | group hfs =>
              rw [Frame.closeRound_group hcloses] at hstep
              cases hstep
              simpa using Stands.operator hfs ht.group rfl
          | call hfs hdone =>
              rw [Frame.closeRound_call hcloses] at hstep
              cases hstep
              simpa using Stands.operator hfs (.call _ (.snoc hdone ht)) rfl
          | nil | list | index =>
              unfold Arrangement.closeRound at hstep
              rw [hcloses] at hstep
              cases hstep
      | closeSquare =>
          cases hturn
          change a.closeSquare = _ at hstep
          cases hopens with
          | before | between => cases hhead _ rfl
          | list hfs hdone =>
              rw [Frame.closeSquare_list hcloses] at hstep
              cases hstep
              simpa using Stands.operator hfs (.list (.snoc hdone ht)) rfl
          | index hfs htarget hdone =>
              rw [Frame.closeSquare_index hcloses] at hstep
              split at hstep
              · rename_i hlength
                cases List.eq_nil_of_length_eq_zero hlength
                cases hdone.eq_nil
                cases hstep
                simpa using Stands.operator hfs (.subscript htarget ht) rfl
              · cases hstep
          | nil | group | call =>
              unfold Arrangement.closeSquare at hstep
              rw [hcloses] at hstep
              cases hstep
      | comma =>
          cases hturn
          change a.comma.mapError Failure.error = _ at hstep
          cases hopens with
          | before | between => cases hhead _ rfl
          | call hfs hdone =>
              rw [Frame.comma_call hcloses] at hstep
              cases hstep
              simpa using Stands.value (.call hfs (.more hdone ht)) rfl
          | list hfs hdone =>
              rw [Frame.comma_list hcloses] at hstep
              cases hstep
              simpa using Stands.value (.list hfs (.more hdone ht)) rfl
          | index hfs htarget hdone =>
              rw [Frame.comma_index hcloses] at hstep
              cases hstep
              simpa using Stands.value (.index hfs htarget (.more hdone ht)) rfl
          | nil | group =>
              unfold Arrangement.comma at hstep
              rw [hcloses] at hstep
              cases hstep

/-- An operator that follows a value takes the place of those that yield to it. -/
theorem stands_follow (hopens : Frame.Opens fs ts) (ht : t.Spells us)
    (ha : Arrangement.applyWhile (yieldsTo o) a.stack a.output = .ok (Frame.hold fs t))
    (hturn : follow o = some turn) (hstep : a.step previous (.op o) = .ok a') :
    Stands turn (some (.op o)) a' (ts ++ us ++ [.op o]) := by
  unfold follow at hturn
  cases hplace : o.place with
  | before =>
      rw [hplace] at hturn
      cases hturn
  | between =>
      rw [Frame.step_operator (by rw [hplace]; exact Placement.noConfusion) ha] at hstep
      rw [hplace] at hturn
      by_cases harity : Operator.arity o.symbol = 2
      · rw [if_pos harity] at hturn
        cases hturn
        cases hstep
        exact .value (hopens.between hplace harity ht) rfl
      · rw [if_neg harity] at hturn
        cases hturn
  | after =>
      rw [Frame.step_operator (by rw [hplace]; exact Placement.noConfusion) ha] at hstep
      rw [hplace] at hturn
      by_cases harity : Operator.arity o.symbol = 1
      · rw [if_pos harity] at hturn
        cases hturn
        cases hstep
        exact .marked hopens ht hplace harity
      · rw [if_neg harity] at hturn
        cases hturn

/-- One token. -/
theorem Stands.step (h : Stands turn previous a ts) (hturn : turn.next tok = some turn')
    (hstep : a.step previous tok = .ok a') : Stands turn' (some tok) a' (ts ++ [tok]) := by
  cases h with
  | value hopens hprevious =>
      obtain ⟨b, hb, hstands⟩ := stands_begin hopens hprevious hturn
      rw [hb] at hstep
      cases hstep
      exact hstands
  | bracket hopens =>
      by_cases htok : tok = .mark .openRound
      · subst htok
        cases hturn
        cases hstep
        simpa using Stands.argument hopens
      · simp only [next, if_neg htok] at hturn
        cases hturn
  | @argument fs ts name hopens =>
      by_cases htok : tok = .mark .closeRound
      · subst htok
        cases hturn
        change (Frame.arrange _).closeRound = _ at hstep
        rw [Frame.closeRound_call_empty] at hstep
        cases hstep
        simpa using Stands.operator hopens (.call name .nil) rfl
      · rw [next, if_neg htok] at hturn
        have hprevious : Arrangement.startsList (some (.mark .openRound)) = true := rfl
        obtain ⟨b, hb, hstands⟩ := stands_begin (hopens.call .none) hprevious hturn
        rw [hb] at hstep
        cases hstep
        exact hstands
  | @element fs ts hopens =>
      by_cases htok : tok = .mark .closeSquare
      · subst htok
        cases hturn
        change (Frame.arrange _).closeSquare = _ at hstep
        rw [Frame.closeSquare_list_empty] at hstep
        cases hstep
        simpa using Stands.operator hopens (.list .nil) rfl
      · rw [next, if_neg htok] at hturn
        have hprevious : Arrangement.startsList (some (.mark .openSquare)) = true := rfl
        obtain ⟨b, hb, hstands⟩ := stands_begin (hopens.list .none) hprevious hturn
        rw [hb] at hstep
        cases hstep
        exact hstands
  | @operator fs t ts us previous hopens ht hprevious =>
      have hended := ended_hold hopens ht
      cases tok with
      | op o =>
          obtain ⟨ts', us', hopens', ht', htokens⟩ := hopens.unwind ht (yieldsTo o)
          rw [← htokens]
          exact stands_follow hopens' ht' (Frame.applyWhile_hold hopens.isProper t) hturn hstep
      | mark m =>
          cases m with
          | openSquare =>
              cases hturn
              rw [Frame.step_openSquare hprevious] at hstep
              cases hstep
              exact .value (hopens.index ht .none) rfl
          | _ => exact stands_close hended hturn hstep
      | _ => exact stands_close hended hturn hstep
  | @marked fs t o ts us hopens ht ho harity =>
      have hended := ended_mark hopens ht ho harity
      cases tok with
      | op o' =>
          by_cases hready : yieldsTo o' o = true
          · rw [next, if_pos hready] at hturn
            obtain ⟨ts', us', hopens', ht', htokens⟩ :=
              hopens.unwind (ht.after ho) (yieldsTo o')
            rw [List.append_assoc ts, ← htokens]
            exact stands_follow hopens' ht'
              (Frame.applyWhile_mark hopens.isProper t harity hready) hturn hstep
          · rw [next, if_neg hready] at hturn
            cases hturn
      | _ => exact stands_close hended hturn hstep

/-! ### All tokens -/

/-- A list of tokens. -/
theorem Stands.run (h : Stands turn previous a ts) (hturn : turn.after us = some turn')
    (hrun : a.run previous us = .ok a') : ∃ previous', Stands turn' previous' a' (ts ++ us) := by
  induction us generalizing turn previous a ts with
  | nil =>
      cases hturn
      cases hrun
      exact ⟨previous, by simpa using h⟩
  | cons tok us ih =>
      obtain ⟨turn₁, hnext, hafter⟩ := Option.bind_eq_some_iff.1 hturn
      rw [Arrangement.run] at hrun
      cases hstep : a.step previous tok with
      | error e =>
          rw [hstep] at hrun
          cases hrun
      | ok a₁ =>
          rw [hstep] at hrun
          simpa using ih (h.step hnext hstep) hafter hrun

/-- Where an expression may end, it is what has been read. -/
theorem Stands.finish {root : Tree} (h : Stands turn previous a ts) (hend : turn.isEnd = true)
    (hfinish : a.finish = .ok (some root)) : root.Spells ts := by
  have hended : Ended a ts := by
    cases h with
    | operator hopens ht _ => exact ended_hold hopens ht
    | marked hopens ht ho harity => exact ended_mark hopens ht ho harity
    | value | bracket | argument | element => cases hend
  obtain ⟨fs, t, us, vs, hcloses, hhead, hopens, ht, rfl⟩ := hended
  cases hopens with
  | before | between => cases hhead _ rfl
  | nil =>
      rw [Frame.finish_of_closes hcloses] at hfinish
      cases hfinish
      simpa using ht
  | group | call | list | index =>
      unfold Arrangement.finish at hfinish
      rw [hcloses] at hfinish
      cases hfinish

/-- Values and operators take turns in a list of tokens. -/
def Alternate (ts : List Token) : Prop := ∃ turn, value.after ts = some turn ∧ turn.isEnd = true

end Turn

namespace Tree

/-- **Accepted expressions are infix expressions.** A list of tokens in which values and operators
take turns and that is accepted is an infix expression of its tree: without brackets and commas it is
the tree read in order. -/
theorem spells_of_ofTokens {ts : List Token} {t : Tree} (hturns : Turn.Alternate ts)
    (h : ofTokens (fun _ => false) ts = .ok (some t)) :
    t.Spells ts ∧ t.Reads (ts.filter Token.isContent) := by
  obtain ⟨turn, hturn, hend⟩ := hturns
  rw [ofTokens, withProducts_of_no_variable] at h
  cases hrun : Arrangement.empty.run none ts with
  | error e =>
      rw [hrun] at h
      cases h
  | ok a =>
      have hstart : Turn.Stands .value none Arrangement.empty [] := .value .nil rfl
      obtain ⟨previous, hstands⟩ := hstart.run hturn hrun
      rw [hrun] at h
      cases hfinish : a.finish with
      | error e =>
          change a.finish.mapError Failure.error = _ at h
          rw [hfinish] at h
          cases h
      | ok root =>
          change a.finish.mapError Failure.error = _ at h
          rw [hfinish] at h
          cases h
          have hspells := hstands.finish hend hfinish
          exact ⟨hspells, hspells.reads⟩

/-- A list with a sign in it, of which an element is taken. -/
theorem spells_subscript_of_list : ∃ ts t, Turn.Alternate ts ∧
    ofTokens (fun _ => false) ts = .ok (some t) ∧
    t.Spells ts ∧ t.Reads (ts.filter Token.isContent) := by
  refine ⟨[.mark .openSquare, .name "a" [], .mark .comma, .op ⟨"-u", .before⟩, .name "b" [],
      .mark .closeSquare, .mark .openSquare, .name "n" [], .mark .closeSquare],
    node (.call "listval") [node .list [leaf (.name "a" []),
      node (.op ⟨"-u", .before⟩) [leaf (.name "b" [])]], leaf (.name "n" [])],
    ⟨.operator, rfl, rfl⟩, rfl, ?_⟩
  exact spells_of_ofTokens ⟨.operator, rfl, rfl⟩ rfl

/-- Without turns an operator may come to stand between operands that are both before it. -/
theorem not_reads_twoTexts :
    ∃ ts t, Token.ofSource "\"a\" \"b\" +" = .ok ts ∧ ofTokens (fun _ => false) ts = .ok (some t) ∧
      ¬t.Reads (ts.filter Token.isContent) := by
  refine ⟨[.text "a", .text "b", .op ⟨"+", .between⟩],
    node (.op ⟨"+", .between⟩) [leaf (.plainText "a"), leaf (.plainText "b")], ?_, rfl, ?_⟩
  · have hfirst : Lexeme.scan ['\x22', 'a', '\x22', ' ', '\x22', 'b', '\x22', ' ', '+'] =
        (Lexeme.scan [' ', '\x22', 'b', '\x22', ' ', '+']).map (.text "a" :: ·) :=
      Lexeme.scan_of_recognise ['a', '\x22'] _ rfl rfl
    have hsecond : Lexeme.scan ['\x22', 'b', '\x22', ' ', '+'] =
        (Lexeme.scan [' ', '+']).map (.text "b" :: ·) :=
      Lexeme.scan_of_recognise ['b', '\x22'] _ rfl rfl
    have hsign : Lexeme.scan ['+'] = (Lexeme.scan []).map (.operator "+" :: ·) :=
      Lexeme.scan_of_recognise [] _ rfl rfl
    rw [Token.ofSource, show "\"a\" \"b\" +".toList =
      ['\x22', 'a', '\x22', ' ', '\x22', 'b', '\x22', ' ', '+'] from rfl, hfirst,
      Lexeme.scan_of_isSkipped _ rfl, hsecond, Lexeme.scan_of_isSkipped _ rfl, hsign, Lexeme.scan]
    rfl
  · intro h
    generalize hts : List.filter Token.isContent _ = ts at h
    cases h with
    | between ho hl hr =>
        cases hl
        cases hts

end Tree

end MathExpr
