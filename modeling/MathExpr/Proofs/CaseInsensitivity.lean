import MathExpr.Library.Scope
import MathExpr.Proofs.CaseFolding

/-!
# Case insensitivity

Sources that only differ in the case of ASCII letters outside quoted texts have the same outcome in every
scope (`Scope.sameOutcome_evalSource_of_foldCase`).

They are cut into the same lexemes up to the case of names. From there on names only occur in comparisons
of their keys, so that tokens (`Token.ofLexemes_sameName`), the arrangement of tokens
(`Arrangement.run_sameNames`) and the tree (`Tree.ofSourceIn_of_foldCase`) are the same up to the case of
names, whatever variables are known. Evaluation does not see it either, by the identity renaming.
-/

namespace MathExpr

/-! ### Tokens -/

namespace Token

/-- Equal tokens, or names or functions in another case. -/
inductive SameName : Token → Token → Prop
  | refl (t : Token) : SameName t t
  | name {s s' : String} (hints hints' : List String) (h : Text.lower s = Text.lower s') :
      SameName (.name s hints) (.name s' hints')
  | function {s s' : String} (h : Text.lower s = Text.lower s') : SameName (.function s) (.function s')

variable {p p' : Option Token}

theorem endsFactor_sameName (h : Option.Rel SameName p p') : endsFactor p = endsFactor p' := by
  cases h with
  | none => rfl
  | some h => cases h <;> rfl

theorem expectsValue_sameName (h : Option.Rel SameName p p') : expectsValue p = expectsValue p' := by
  cases h with
  | none => rfl
  | some h => cases h <;> rfl

theorem withProduct_sameName (hp : Option.Rel SameName p p') {t t' : Token} (h : SameName t t') :
    List.Forall₂ SameName (withProduct p t) (withProduct p' t') := by
  unfold withProduct
  rw [endsFactor_sameName hp]
  split
  · exact .cons (.refl _) (.cons h .nil)
  · exact .cons h .nil

theorem ofName_sameName (hp : Option.Rel SameName p p') (hints hints' : List String) {s s' : String}
    (h : Text.lower s = Text.lower s') (applied : Bool) :
    List.Forall₂ SameName (ofName p hints s applied) (ofName p' hints' s' applied) := by
  refine withProduct_sameName hp ?_
  rw [h]
  cases applied with
  | true => exact .function h
  | false =>
      cases constant? (Text.lower s') with
      | none => exact .name hints hints' h
      | some n => exact .refl _

theorem ofLexeme_sameName (hp : Option.Rel SameName p p') {l l' : Lexeme} (h : l.SameName l') :
    List.Forall₂ SameName (ofLexeme p l) (ofLexeme p' l') := by
  cases h with
  | name hints hints' h applied => exact ofName_sameName hp hints hints' h applied
  | refl l =>
      cases l with
      | number x => exact withProduct_sameName hp (.refl _)
      | text s => exact .cons (.refl _) .nil
      | boolean b => exact .cons (.refl _) .nil
      | operator symbol =>
          show List.Forall₂ SameName [op (.ofSymbol (expectsValue p) symbol)]
            [op (.ofSymbol (expectsValue p') symbol)]
          rw [expectsValue_sameName hp]
          exact .cons (.refl _) .nil
      | name hints s applied => exact ofName_sameName hp hints hints rfl applied
      | mark m =>
          cases m with
          | openRound => exact withProduct_sameName hp (.refl _)
          | _ => exact .cons (.refl _) .nil

theorem getLast?_sameName {ts us : List Token} (h : List.Forall₂ SameName ts us) :
    Option.Rel SameName ts.getLast? us.getLast? := by
  have hreverse := List.rel_reverse h
  rw [← List.head?_reverse, ← List.head?_reverse]
  generalize ts.reverse = ts', us.reverse = us' at *
  cases hreverse with
  | nil => exact .none
  | cons h _ => exact .some h

theorem ofLexemes_sameName {ls ls' : List Lexeme} (h : List.Forall₂ Lexeme.SameName ls ls') :
    ∀ {p p' : Option Token}, Option.Rel SameName p p' →
      List.Forall₂ SameName (ofLexemes p ls) (ofLexemes p' ls') := by
  induction h with
  | nil => exact fun _ => .nil
  | cons hl _ ih =>
      intro p p' hp
      have hts := ofLexeme_sameName hp hl
      refine List.rel_append hts (ih ?_)
      rcases or_of_optionRel (getLast?_sameName hts) with ⟨ht, hu⟩ | ⟨t, u, ht, hu, htu⟩
      · rw [ht, hu]
        exact hp
      · rw [ht, hu]
        exact .some htu

/-- Functions that are variables are known in any case. -/
theorem withProducts_sameName (isVariable : String → Bool) {ts us : List Token}
    (h : List.Forall₂ SameName ts us) :
    List.Forall₂ SameName (Tree.withProducts isVariable ts) (Tree.withProducts isVariable us) := by
  refine List.rel_flatMap h fun t u htu => ?_
  cases htu with
  | refl t => exact List.forall₂_same.2 fun t _ => .refl t
  | name hints hints' h => exact .cons (.name hints hints' h) .nil
  | @function s s' h =>
      dsimp only
      rw [h]
      split
      · exact .cons (.name [] [] h) (.cons (.refl _) .nil)
      · exact .cons (.function h) .nil

end Token

/-! ### Arranging tokens -/

/-- The same waits, but for the case of the function that is called. -/
inductive Pending.SameName : Pending → Pending → Prop
  | refl (p : Pending) : SameName p p
  | call {f g : String} (h : Text.lower f = Text.lower g) (start commas : Nat) :
      SameName (.call f start commas) (.call g start commas)

/-- Trees that are the same up to the case of names. -/
abbrev Tree.SameNames : Tree → Tree → Prop := Tree.Renamed Renaming.identity

namespace Arrangement

/-- Two arrangements that are the same up to the case of names. -/
structure SameNames (a b : Arrangement) : Prop where
  stack : List.Forall₂ Pending.SameName a.stack b.stack
  output : List.Forall₂ Tree.SameNames a.output b.output

variable {a b : Arrangement} {ts us : List Tree}

theorem combine_sameNames {h k : Head} (hkind : h.kind = k.kind) (hkey : h.key? = k.key?)
    (label label' : String) (n : Nat) (hts : List.Forall₂ Tree.SameNames ts us) :
    AgreesUpTo Error.kind (List.Forall₂ Tree.SameNames) (combine h label n ts) (combine k label' n us) := by
  unfold combine
  rw [hts.length_eq]
  split
  · exact .error rfl
  · exact .ok (.cons (.node hkind hkey (List.rel_reverse (List.forall₂_take n hts))) (List.forall₂_drop n hts))

theorem applyWhile_sameNames (isReady : Operator → Bool) {ps qs : List Pending}
    (hps : List.Forall₂ Pending.SameName ps qs) :
    ∀ {ts us : List Tree}, List.Forall₂ Tree.SameNames ts us →
      AgreesUpTo Error.kind SameNames (applyWhile isReady ps ts) (applyWhile isReady qs us) := by
  induction hps with
  | nil => exact fun hts => .ok ⟨.nil, hts⟩
  | @cons p q ps qs hpq hps ih =>
      intro ts us hts
      cases hpq with
      | call h start commas => exact .ok ⟨.cons (.call h start commas) hps, hts⟩
      | refl p =>
          cases p with
          | op o =>
              unfold applyWhile
              split
              · exact (combine_sameNames rfl rfl _ _ _ hts).bind fun ts us h => ih h
              · exact .ok ⟨.cons (.refl _) hps, hts⟩
          | _ => exact .ok ⟨.cons (.refl _) hps, hts⟩

theorem applyAll_sameNames (h : a.SameNames b) : AgreesUpTo Error.kind SameNames a.applyAll b.applyAll :=
  applyWhile_sameNames _ h.stack h.output

theorem operator_sameNames (o : Operator) (h : a.SameNames b) :
    AgreesUpTo Error.kind SameNames (a.operator o) (b.operator o) := by
  have hpush {a b : Arrangement} (h : a.SameNames b) :
      AgreesUpTo Error.kind SameNames (pure ⟨.op o :: a.stack, a.output⟩ : Except Error Arrangement)
        (pure ⟨.op o :: b.stack, b.output⟩) := .ok ⟨.cons (.refl _) h.stack, h.output⟩
  unfold operator
  split
  · exact hpush h
  · exact (applyWhile_sameNames _ h.stack h.output).bind fun a b h => hpush h

theorem comma_sameNames (h : a.SameNames b) : AgreesUpTo Error.kind SameNames a.comma b.comma := by
  refine (applyAll_sameNames h).bind ?_
  rintro ⟨ps, ts⟩ ⟨qs, us⟩ ⟨hps, hts⟩
  cases hps with
  | nil => exact .error rfl
  | @cons p q ps qs hpq hps =>
      cases hpq with
      | call h start commas => exact .ok ⟨.cons (.call h _ _) hps, hts⟩
      | refl p =>
          cases p with
          | op o => exact .error rfl
          | group => exact .error rfl
          | _ => exact .ok ⟨.cons (.refl _) hps, hts⟩

/-- A bracket that closes takes as many arguments in both. -/
theorem argumentCount_sameNames (start commas : Nat) (h : List.Forall₂ Tree.SameNames ts us) :
    argumentCount start commas ts = argumentCount start commas us := by
  unfold argumentCount
  rw [h.length_eq]

/-- A bracket that closes makes a node of the same kind in both. -/
theorem close_sameNames {h k : Head} (hkind : h.kind = k.kind) (hkey : h.key? = k.key?)
    (label label' : String) (n : Nat) {ps qs : List Pending} (hps : List.Forall₂ Pending.SameName ps qs)
    (hts : List.Forall₂ Tree.SameNames ts us) :
    AgreesUpTo Failure.kind SameNames
      (do return ⟨ps, ← (combine h label n ts).mapError .error⟩)
      (do return ⟨qs, ← (combine k label' n us).mapError .error⟩) :=
  (combine_sameNames hkind hkey label label' n hts).asFailure.bind fun _ _ hout => .ok ⟨hps, hout⟩

theorem closeSquare_sameNames (h : a.SameNames b) :
    AgreesUpTo Failure.kind SameNames a.closeSquare b.closeSquare := by
  refine (applyAll_sameNames h).asFailure.bind ?_
  rintro ⟨ps, ts⟩ ⟨qs, us⟩ ⟨hps, hts⟩
  cases hps with
  | nil => exact .error rfl
  | @cons p q ps qs hpq hps =>
      cases hpq with
      | call h start commas => exact .error rfl
      | refl p =>
          cases p with
          | square isIndex start commas =>
              dsimp only
              rw [argumentCount_sameNames start commas hts]
              split
              · split
                · exact close_sameNames rfl rfl _ _ _ hps hts
                · exact .error rfl
              · exact close_sameNames rfl rfl _ _ _ hps hts
          | _ => exact .error rfl

/-- The one name of a function has the same key in any case. -/
theorem lower_canonicalFunction {f g : String} (h : Text.lower f = Text.lower g) (key : String) :
    Text.lower (Operator.canonicalFunction f key) = Text.lower (Operator.canonicalFunction g key) := by
  unfold Operator.canonicalFunction
  split <;> first | rfl | exact h

theorem closeRound_sameNames (h : a.SameNames b) :
    AgreesUpTo Failure.kind SameNames a.closeRound b.closeRound := by
  have hcall {f g : String} (hfg : Text.lower f = Text.lower g) (n : Nat) {ps qs : List Pending}
      (hps : List.Forall₂ Pending.SameName ps qs) {ts us : List Tree}
      (hts : List.Forall₂ Tree.SameNames ts us) :=
    close_sameNames (h := .call f) (k := .call g) rfl (congrArg some hfg) f g n hps hts
  refine (applyAll_sameNames h).asFailure.bind ?_
  rintro ⟨ps, ts⟩ ⟨qs, us⟩ ⟨hps, hts⟩
  cases hps with
  | nil => exact .error rfl
  | @cons p q ps qs hpq hps =>
      cases hpq with
      | call h start commas =>
          dsimp only
          rw [argumentCount_sameNames start commas hts, h]
          exact hcall (lower_canonicalFunction h _) _ hps hts
      | refl p =>
          cases p with
          | group => exact .ok ⟨hps, hts⟩
          | call f start commas =>
              dsimp only
              rw [argumentCount_sameNames start commas hts]
              exact hcall rfl _ hps hts
          | _ => exact .error rfl

theorem startsList_sameName {p p' : Option Token} (h : Option.Rel Token.SameName p p') :
    startsList p = startsList p' := by
  cases h with
  | none => rfl
  | some h => cases h <;> rfl

theorem push_sameNames (h : a.SameNames b) {t u : Tree} (htu : t.SameNames u) :
    (a.push t).SameNames (b.push u) :=
  ⟨h.stack, .cons htu h.output⟩

/-- One more token. -/
theorem step_sameNames {p p' : Option Token} (hp : Option.Rel Token.SameName p p') (h : a.SameNames b)
    {t u : Token} (htu : t.SameName u) :
    AgreesUpTo Failure.kind SameNames (a.step p t) (b.step p' u) := by
  have hleaf (v : Value) : AgreesUpTo Failure.kind SameNames (.ok (a.push (.leaf v)) : Outcome Arrangement)
      (.ok (b.push (.leaf v))) := .ok (push_sameNames h (.leaf (.same Renaming.isIdentity_identity)))
  cases htu with
  | name hints hints' hname => exact .ok (push_sameNames h (.leaf (.name hints hints' hname)))
  | function hname =>
      refine .ok ⟨?_, h.output⟩
      rw [h.output.length_eq]
      exact .cons (.call hname _ _) h.stack
  | refl t =>
      cases t with
      | op o => exact (operator_sameNames o h).asFailure
      | function f =>
          refine .ok ⟨?_, h.output⟩
          rw [h.output.length_eq]
          exact .cons (.refl _) h.stack
      | mark m =>
          cases m with
          | openRound =>
              have hgroup : AgreesUpTo Failure.kind SameNames
                  (.ok ⟨.group :: a.stack, a.output⟩ : Outcome Arrangement)
                  (.ok ⟨.group :: b.stack, b.output⟩) := .ok ⟨.cons (.refl _) h.stack, h.output⟩
              cases hp with
              | none => exact hgroup
              | @some t u hp =>
                  cases hp with
                  | refl t =>
                      cases t with
                      | function f => exact .ok h
                      | _ => exact hgroup
                  | name => exact hgroup
                  | function => exact .ok h
          | closeRound => exact closeRound_sameNames h
          | openSquare =>
              refine .ok ⟨?_, h.output⟩
              rw [h.output.length_eq, startsList_sameName hp]
              exact .cons (.refl _) h.stack
          | closeSquare => exact closeSquare_sameNames h
          | comma => exact (comma_sameNames h).asFailure
      | _ => exact hleaf _

/-- All tokens. -/
theorem run_sameNames {ts us : List Token} (hts : List.Forall₂ Token.SameName ts us) :
    ∀ {p p' : Option Token} {a b : Arrangement}, Option.Rel Token.SameName p p' → a.SameNames b →
      AgreesUpTo Failure.kind SameNames (a.run p ts) (b.run p' us) := by
  induction hts with
  | nil => exact fun _ h => .ok h
  | cons htu _ ih => exact fun hp h => (step_sameNames hp h htu).bind fun a b hab => ih (.some htu) hab

theorem finish_sameNames (h : a.SameNames b) :
    AgreesUpTo Error.kind (Option.Rel Tree.SameNames) a.finish b.finish := by
  refine (applyAll_sameNames h).bind ?_
  rintro ⟨ps, ts⟩ ⟨qs, us⟩ ⟨hps, hts⟩
  cases hps with
  | @cons p q ps qs hpq _ =>
      cases hpq with
      | call => exact .error rfl
      | refl p => cases p <;> exact .error rfl
  | nil =>
      cases hts with
      | nil => exact .ok .none
      | cons htu hts =>
          cases hts with
          | nil => exact .ok (.some htu)
          | cons => exact .error rfl

end Arrangement

/-! ### Trees and values -/

/-- Sources that only differ in case have the same tree up to the case of names. -/
theorem Tree.ofSourceIn_of_foldCase {a b : String}
    (h : Lexeme.foldCase (Text.strip a).toList = Lexeme.foldCase (Text.strip b).toList)
    (isVariable : String → Bool) :
    AgreesUpTo Failure.kind (Option.Rel Tree.SameNames) (Tree.ofSourceIn isVariable a)
      (Tree.ofSourceIn isVariable b) := by
  have hempty : (Text.strip a).isEmpty = (Text.strip b).isEmpty := by
    have hmap := congrArg (List.map Char.toLower) h
    rw [Lexeme.map_toLower_foldCase, Lexeme.map_toLower_foldCase] at hmap
    rw [Bool.eq_iff_iff, String.isEmpty_iff, String.isEmpty_iff, ← String.toList_eq_nil_iff,
      ← String.toList_eq_nil_iff, ← List.map_eq_nil_iff, hmap, List.map_eq_nil_iff]
  unfold ofSourceIn
  dsimp only
  rw [hempty]
  split
  · exact .ok .none
  · have htokens : AgreesUpTo Error.kind (List.Forall₂ Token.SameName) (Token.ofSource (Text.strip a))
        (Token.ofSource (Text.strip b)) :=
      (Lexeme.scan_of_foldCase_eq h).bind fun ls ls' hls => .ok (Token.ofLexemes_sameName hls .none)
    refine htokens.asFailure.bind fun ts us hts => ?_
    refine (Arrangement.run_sameNames (Token.withProducts_sameName isVariable hts) .none
      ⟨.nil, .nil⟩).bind fun a b hab => ?_
    exact (Arrangement.finish_sameNames hab).asFailure

/-- **Case insensitivity.** Two sources that are the same when all ASCII letters outside quoted texts are
put into lower case have the same value and draw the same random numbers, or fail with errors of the same
kind, in every scope. Blanks around a source do not count. -/
theorem Scope.sameOutcome_evalSource_of_foldCase (s : Scope) {a b : String}
    (h : Lexeme.foldCase (Text.strip a).toList = Lexeme.foldCase (Text.strip b).toList)
    (values : Table Value) : Action.SameOutcome (s.evalSource a values) (s.evalSource b values) := by
  have hsource (s : Scope) : Action.Alike (Option.Rel Tree.SameNames) (Action.ofOutcome (s.tree a))
      (Action.ofOutcome (s.tree b)) := .ofOutcome (Tree.ofSourceIn_of_foldCase h _)
  unfold Scope.evalSource
  dsimp only
  refine (hsource _).bind_sameOutcome fun t u htu => ?_
  cases htu with
  | none => exact .refl _
  | some htu => exact ((Scope.renamed_identity _).sameOutcome_eval htu).bind fun v => .refl _

theorem Scope.sameOutcome_evalSource_of_foldCase_product :
    Lexeme.foldCase (Text.strip "Pi R^2 + LEN(\x22Pi\x22)").toList =
      Lexeme.foldCase (Text.strip "PI r^2 + len(\x22Pi\x22)").toList ∧
    Action.SameOutcome (Library.scope.evalSource "Pi R^2 + LEN(\x22Pi\x22)" .empty)
      (Library.scope.evalSource "PI r^2 + len(\x22Pi\x22)" .empty) :=
  have h : Lexeme.foldCase (Text.strip "Pi R^2 + LEN(\x22Pi\x22)").toList =
      Lexeme.foldCase (Text.strip "PI r^2 + len(\x22Pi\x22)").toList := by decide +kernel
  ⟨h, Scope.sameOutcome_evalSource_of_foldCase _ h _⟩

end MathExpr
