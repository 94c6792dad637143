import MathExpr.Proofs.Delimiters
import MathExpr.Proofs.Leaves

/-!
# Tokens side by side

In a list of tokens each token fits between the two beside it (`Token.Fits`): no two factors stand side by
side without a product sign between them, a function stands before its bracket, a sign that belongs to the
value behind it stands where a value may start, one that belongs to the value before it behind such a value,
and a constant is a number and no name. All tokens of source text fit (`Token.fits_of_ofSource`).

Which form a lexeme takes is decided from the token before only, and a product sign may be put between them,
so that the tokens are followed one by one (`Token.WellFormed`). Behind the name of a function that is decided
correctly because a bracket follows at once: with a bracket no product sign is implied there, and no operator
can come between (`Lexeme.AppliesNames`).
-/

namespace MathExpr

/-! ### Brackets behind names -/

namespace Lexeme

/-- A name that is applied stands directly before an opening bracket. -/
def AppliesNames (ls : List Lexeme) : Prop :=
  ∀ ⦃hints s rest⦄, name hints s true :: rest <:+ ls → rest.head? = some (mark .openRound)

theorem AppliesNames.tail {l : Lexeme} {ls : List Lexeme} (h : AppliesNames (l :: ls)) : AppliesNames ls :=
  fun _ _ _ hsuffix => h (hsuffix.trans (List.suffix_cons l ls))

/-- Nothing but the bracket itself starts with a bracket. -/
theorem Stands.openRound {l : Option Lexeme} {cs tail : List Char} (h : Stands l ('(' :: cs) tail) :
    l = some (Lexeme.mark .openRound) := by
  generalize hchars : '(' :: cs = chars at h
  cases h with
  | comment => cases hchars
  | number hnumber =>
      obtain ⟨c, rest, rfl, hc⟩ := hnumber.exists_cons
      cases hchars
      exact absurd hc (by decide)
  | text htext =>
      cases htext with
      | quoted hquote =>
          cases hchars
          exact absurd hquote (by decide)
  | boolean hword hspells =>
      subst hchars
      exact absurd List.mem_cons_self
        (not_mem_of_spells (List.subset_append_left _ _ hword) hspells (by decide))
  | word hword hspells =>
      subst hchars
      exact absurd List.mem_cons_self
        (not_mem_of_spells (List.subset_append_right _ _ hword) hspells (by decide))
  | @sign s _ hsign =>
      have hall : ∀ s ∈ operatorSigns, s.toList.head? ≠ some '(' := by decide +kernel
      exact absurd (hchars ▸ rfl) (hall s (List.mem_of_find?_eq_some hsign))
  | name hname =>
      obtain ⟨c, rest, rfl, hc⟩ := hname.exists_cons
      cases hchars
      exact absurd hc (by decide)
  | @mark m =>
      cases m with
      | openRound => rfl
      | closeRound | openSquare | closeSquare | comma => cases hchars

theorem head?_of_scan_openRound {cs : List Char} {ls : List Lexeme} (h : scan cs = .ok ls)
    (hopen : cs.head? = some '(') : ls.head? = some (mark .openRound) := by
  rcases scan_cases h with ⟨rfl, -⟩ | ⟨c, rest, rfl, hc, -⟩ |
    ⟨c, chunk, tail, l, ls', rfl, -, hstands, -, rfl⟩
  · cases hopen
  · cases hopen
    exact absurd hc (by decide)
  · cases hopen
    rw [hstands.openRound, Option.toList_some, List.cons_append, List.head?_cons]

/-- A name is applied if a bracket follows it at once, and then the bracket is the next lexeme. -/
theorem appliesNames_of_scan {cs : List Char} {ls : List Lexeme} (h : scan cs = .ok ls) :
    AppliesNames ls := by
  induction hlength : cs.length using Nat.strong_induction_on generalizing cs ls with
  | _ n ih =>
  rcases scan_cases h with ⟨rfl, rfl⟩ | ⟨c, rest, rfl, -, hrest⟩ |
    ⟨c, chunk, tail, l, ls', rfl, -, hstands, htail, rfl⟩
  · intro hints s rest hsuffix
    cases List.suffix_nil.1 hsuffix
  · exact ih rest.length (by simp [← hlength]) hrest rfl
  · have hshorter : tail.length < n := by
      rw [← hlength, List.length_append, List.length_cons]
      omega
    have ih := ih tail.length hshorter htail rfl
    cases l with
    | none => exact ih
    | some l =>
        intro hints s rest hsuffix
        rcases List.suffix_cons_iff.1 hsuffix with heq | hsuffix
        · obtain ⟨rfl, rfl⟩ := List.cons.inj heq
          generalize happlied : true = applied at hstands
          cases hstands with
          | name => exact head?_of_scan_openRound htail (beq_iff_eq.1 happlied.symm)
        · exact ih hsuffix

end Lexeme

/-! ### Tokens that fit -/

namespace Token

/-- A factor ends with the token. -/
inductive EndsFactor : Token → Prop
  | number {n : Number} : EndsFactor (number n)
  | name {s : String} {hints : List String} : EndsFactor (name s hints)
  | closeRound : EndsFactor (mark .closeRound)

/-- A factor starts with the token. -/
inductive StartsFactor : Token → Prop
  | number {n : Number} : StartsFactor (number n)
  | name {s : String} {hints : List String} : StartsFactor (name s hints)
  | function {s : String} : StartsFactor (function s)
  | openRound : StartsFactor (mark .openRound)

/-- Behind the token a value has yet to come. -/
inductive Opens : Token → Prop
  | openRound : Opens (mark .openRound)
  | openSquare : Opens (mark .openSquare)
  | comma : Opens (mark .comma)
  | op {o : Operator} (ho : o.place ≠ .after) : Opens (op o)

/-- The token completes a value. -/
inductive Completes : Token → Prop
  | number {n : Number} : Completes (number n)
  | text {s : String} : Completes (text s)
  | boolean {b : Bool} : Completes (boolean b)
  | name {s : String} {hints : List String} : Completes (name s hints)
  | closeRound : Completes (mark .closeRound)
  | closeSquare : Completes (mark .closeSquare)
  | op {o : Operator} (ho : o.place = .after) : Completes (op o)

/-- A token that is no function, no operator and no name. -/
inductive IsPlain : Token → Prop
  | number {n : Number} : IsPlain (number n)
  | text {s : String} : IsPlain (text s)
  | boolean {b : Bool} : IsPlain (boolean b)
  | mark {m : Mark} : IsPlain (mark m)

/-- A token fits between the token before it and the token after it, where there are any. -/
structure Fits (before : Option Token) (t : Token) (after : Option Token) : Prop where
  /-- Between two factors there is an operator. -/
  apart : t.StartsFactor → ∀ u ∈ before, ¬u.EndsFactor
  /-- A function is applied. -/
  applied : ∀ s, t = function s → after = some (mark .openRound)
  /-- A sign before its operand stands where a value may start. -/
  sign : ∀ o, t = op o → o.place = .before → ∀ u ∈ before, u.Opens
  /-- A sign after its operand, a sum and a difference stand behind a value. -/
  operand : ∀ o, t = op o → o.place = .after ∨ o = ⟨"+", .between⟩ ∨ o = ⟨"-", .between⟩ →
    ∃ u ∈ before, u.Completes
  /-- A name is not the name of a constant. -/
  named : ∀ s hints, t = name s hints →
    Text.lower s ∉ ["e", "pi", "i", "infinity", "infty", "nan"]

/-- Each of the tokens fits, where some token stands before them. -/
inductive WellFormed : Option Token → List Token → Prop
  | nil {previous : Option Token} : WellFormed previous []
  | cons {previous : Option Token} {t : Token} {ts : List Token} (hfits : Fits previous t ts.head?)
      (hts : WellFormed (some t) ts) : WellFormed previous (t :: ts)

variable {previous after : Option Token} {t : Token} {ts before rest : List Token}

theorem WellFormed.fits (h : WellFormed previous (before ++ t :: rest)) :
    Fits (before.getLast?.or previous) t rest.head? := by
  induction before generalizing previous with
  | nil =>
      cases h with
      | cons hfits => exact hfits
  | cons u before ih =>
      cases h with
      | cons _ hts =>
          rw [List.getLast?_cons, Option.some_or, ← Option.or_some]
          exact ih hts

/-! ### Values before and after -/

theorem endsFactor_eq_false_iff : endsFactor previous = false ↔ ∀ u ∈ previous, ¬u.EndsFactor := by
  constructor
  · rintro h u rfl hu
    cases hu <;> cases h
  · intro h
    unfold endsFactor
    split
    · exact (h _ rfl .number).elim
    · exact (h _ rfl .name).elim
    · exact (h _ rfl .closeRound).elim
    · rfl

theorem opens_of_expects (h : Expects previous) : ∀ u ∈ previous, u.Opens := by
  rintro u rfl
  unfold Expects expectsValue at h
  split at h
  · cases ‹some u = none›
  · cases ‹some u = _›
    exact .openRound
  · cases ‹some u = _›
    exact .comma
  · cases ‹some u = _›
    exact .openSquare
  · cases ‹some u = _›
    exact .op (bne_iff_ne.1 h)
  · cases h

/-- Where no value is expected, one has been completed, unless a function is about to be applied. -/
theorem completes_of_hasEnded (h : HasEnded previous) (hfunction : ∀ s, previous ≠ some (function s)) :
    ∃ u ∈ previous, u.Completes := by
  cases previous with
  | none => cases h
  | some u =>
      refine ⟨u, rfl, ?_⟩
      cases u with
      | number => exact .number
      | text => exact .text
      | boolean => exact .boolean
      | name => exact .name
      | op o => exact .op (by simpa [HasEnded, expectsValue] using h)
      | function s => exact absurd rfl (hfunction s)
      | mark m =>
          cases m with
          | closeRound => exact .closeRound
          | closeSquare => exact .closeSquare
          | openRound | openSquare | comma => cases h

end Token

/-! ### Forms of operators -/

namespace Operator

variable {symbol : String}

theorem ofSymbol_true (symbol : String) :
    (beforeForm? (canonical symbol) = none ∧ ofSymbol true symbol = ⟨canonical symbol, .between⟩) ∨
      ∃ form, ofSymbol true symbol = ⟨form, .before⟩ := by
  unfold ofSymbol
  cases hform : beforeForm? (canonical symbol) with
  | none => exact .inl ⟨rfl, by simp [hform]⟩
  | some form => exact .inr ⟨form, by simp [hform]⟩

theorem place_ofSymbol_false (symbol : String) : (ofSymbol false symbol).place ≠ .before := by
  unfold ofSymbol
  cases hform : afterForm? (canonical symbol) with
  | none => simp [hform]
  | some form => simp [hform]

/-- Where a value is expected, no operator belongs to a value before it, nor does a `+` or a `-`. -/
theorem not_operand_of_ofSymbol_true (symbol : String) :
    ¬((ofSymbol true symbol).place = .after ∨ ofSymbol true symbol = ⟨"+", .between⟩ ∨
      ofSymbol true symbol = ⟨"-", .between⟩) := by
  rcases ofSymbol_true symbol with ⟨hform, heq⟩ | ⟨form, heq⟩
  · rw [heq]
    rintro (h | h | h)
    · cases h
    · rw [(Operator.mk.inj h).1] at hform
      cases hform
    · rw [(Operator.mk.inj h).1] at hform
      cases hform
  · simp [heq]

end Operator

namespace Token

variable {previous after : Option Token} {t : Token} {ts rest : List Token} {ls : List Lexeme}

/-! ### Tokens of a lexeme -/

/-- Of a plain token it is only asked that factors stand apart. -/
theorem fits_of_isPlain (ht : t.IsPlain) (hapart : t.StartsFactor → ∀ u ∈ previous, ¬u.EndsFactor) :
    Fits previous t after where
  apart := hapart
  applied := by
    rintro s rfl
    cases ht
  sign := by
    rintro o rfl
    cases ht
  operand := by
    rintro o rfl
    cases ht
  named := by
    rintro s hints rfl
    cases ht

theorem fits_function {s : String} (hapart : ∀ u ∈ previous, ¬u.EndsFactor)
    (happlied : after = some (mark .openRound)) : Fits previous (function s) after where
  apart _ := hapart
  applied _ _ := happlied
  sign := nofun
  operand := nofun
  named := nofun

theorem fits_name {s : String} {hints : List String} (hapart : ∀ u ∈ previous, ¬u.EndsFactor)
    (hname : Text.lower s ∉ ["e", "pi", "i", "infinity", "infty", "nan"]) :
    Fits previous (name s hints) after where
  apart _ := hapart
  applied := nofun
  sign := nofun
  operand := nofun
  named := by
    rintro _ _ ⟨⟩
    exact hname

theorem fits_operator (symbol : String) (hfunction : ∀ s, previous ≠ some (function s)) :
    Fits previous (op (.ofSymbol (expectsValue previous) symbol)) after where
  apart := nofun
  applied := nofun
  sign := by
    rintro _ ⟨⟩ hplace
    cases hexpects : expectsValue previous with
    | true => exact opens_of_expects hexpects
    | false =>
        rw [hexpects] at hplace
        exact absurd hplace (Operator.place_ofSymbol_false symbol)
  operand := by
    rintro _ ⟨⟩ ho
    cases hexpects : expectsValue previous with
    | false => exact completes_of_hasEnded hexpects hfunction
    | true =>
        rw [hexpects] at ho
        exact absurd ho (Operator.not_operand_of_ofSymbol_true symbol)
  named := nofun

/-- A token that starts a factor is put behind a product sign where one is implied. -/
theorem wellFormed_withProduct (hfits : ∀ before, endsFactor before = false → Fits before t rest.head?)
    (hrest : WellFormed (some t) rest) : WellFormed previous (withProduct previous t ++ rest) := by
  unfold withProduct
  split
  · have htimes : Fits previous (op .times) (some t) := by
      refine ⟨nofun, nofun, ?_, ?_, nofun⟩
      · rintro _ ⟨⟩ hplace
        cases hplace
      · rintro _ ⟨⟩ ho
        exact absurd ho (by decide)
    exact .cons htimes (.cons (hfits _ rfl) hrest)
  · rename_i hends
    exact .cons (hfits _ (Bool.eq_false_iff.2 hends)) hrest

/-- A function among the tokens of a lexeme is a name that is applied. -/
theorem eq_of_function_mem_ofLexeme {l : Lexeme} {s : String} (h : function s ∈ ofLexeme previous l) :
    ∃ hints, l = .name hints s true := by
  cases l with
  | number x => rcases mem_withProduct h with h | h <;> cases h
  | text | boolean | operator => cases List.mem_singleton.1 h
  | name hints s' applied =>
      cases applied with
      | true =>
          rcases mem_withProduct h with h | h <;> cases h
          exact ⟨hints, rfl⟩
      | false =>
          rcases mem_withProduct h with h | h
          · cases h
          · rw [if_neg Bool.false_ne_true] at h
            split at h <;> cases h
  | mark m =>
      cases m with
      | openRound => rcases mem_withProduct h with h | h <;> cases h
      | _ => cases List.mem_singleton.1 h

theorem getLast?_withProduct : (withProduct previous t).getLast? = some t := by
  unfold withProduct
  split <;> rfl

/-- The tokens of one lexeme. -/
theorem wellFormed_ofLexeme {l : Lexeme}
    (hfunction : ∀ s, previous = some (function s) → l = .mark .openRound)
    (happlied : ∀ hints s, l = .name hints s true → rest.head? = some (mark .openRound))
    (hrest : WellFormed ((ofLexeme previous l).getLast?.or previous) rest) :
    WellFormed previous (ofLexeme previous l ++ rest) := by
  cases l with
  | number x =>
      rw [ofLexeme, getLast?_withProduct] at hrest
      exact wellFormed_withProduct
        (fun before h => fits_of_isPlain .number fun _ => endsFactor_eq_false_iff.1 h) hrest
  | text => exact .cons (fits_of_isPlain .text (by rintro ⟨⟩)) hrest
  | boolean => exact .cons (fits_of_isPlain .boolean (by rintro ⟨⟩)) hrest
  | operator symbol => exact .cons (fits_operator symbol fun s hs => by cases hfunction s hs) hrest
  | name hints s applied =>
      rw [ofLexeme, ofName, getLast?_withProduct] at hrest
      refine wellFormed_withProduct (fun before h => ?_) hrest
      have hapart := endsFactor_eq_false_iff.1 h
      cases applied with
      | true => exact fits_function hapart (happlied hints s rfl)
      | false =>
          rw [if_neg Bool.false_ne_true]
          split
          · exact fits_of_isPlain .number fun _ => hapart
          · rename_i hconstant
            refine fits_name hapart fun hmem => ?_
            unfold constant? at hconstant
            split at hconstant <;> simp_all
  | mark m =>
      cases m with
      | openRound =>
          rw [ofLexeme, getLast?_withProduct] at hrest
          exact wellFormed_withProduct
            (fun before h => fits_of_isPlain .mark fun _ => endsFactor_eq_false_iff.1 h) hrest
      | closeRound | openSquare | closeSquare | comma =>
          exact .cons (fits_of_isPlain .mark (by rintro ⟨⟩)) hrest

/-! ### Tokens of source text -/

/-- Behind a function the bracket is the next token too, since no product sign is implied before it. -/
theorem head?_ofLexemes_function {s : String} (h : ls.head? = some (.mark .openRound)) :
    (ofLexemes (some (function s)) ls).head? = some (mark .openRound) := by
  obtain ⟨ls, rfl⟩ := List.head?_eq_some_iff.1 h
  rfl

/-- The tokens of a list of lexemes, behind a token that is no function unless the bracket comes next. -/
theorem wellFormed_ofLexemes (happlied : Lexeme.AppliesNames ls)
    (hfunction : ∀ s, previous = some (function s) → ls.head? = some (.mark .openRound)) :
    WellFormed previous (ofLexemes previous ls) := by
  induction ls generalizing previous with
  | nil => exact .nil
  | cons l ls ih =>
      have hnext (hints s) (h : l = .name hints s true) : ls.head? = some (.mark .openRound) := by
        subst h
        exact happlied List.suffix_rfl
      rw [ofLexemes_cons]
      refine wellFormed_ofLexeme (fun s hs => Option.some.inj (hfunction s hs)) ?_ (ih happlied.tail ?_)
      · rintro hints s rfl
        have hlast : (ofLexeme previous (.name hints s true)).getLast? = some (function s) :=
          getLast?_withProduct
        rw [hlast, Option.some_or]
        exact head?_ofLexemes_function (hnext hints s rfl)
      · -- only the name of a function ends in a function
        intro s hs
        rw [List.getLast?_eq_some_getLast (ofLexeme_ne_nil previous l), Option.some_or,
          Option.some.injEq] at hs
        obtain ⟨hints, hl⟩ := eq_of_function_mem_ofLexeme (hs ▸ List.getLast_mem _)
        exact hnext hints s hl

theorem wellFormed_of_ofSource {source : String} (h : ofSource source = .ok ts) : WellFormed none ts := by
  obtain ⟨ls, hscan, hts⟩ := exists_of_bind_eq_ok h
  cases hts
  exact wellFormed_ofLexemes (Lexeme.appliesNames_of_scan hscan) nofun

/-- Each token of source text fits between the tokens beside it. -/
theorem fits_of_ofSource {source : String} {before after : List Token} {t : Token}
    (h : ofSource source = .ok (before ++ t :: after)) : Fits before.getLast? t after.head? := by
  have hfits := (wellFormed_of_ofSource h).fits
  rwa [Option.or_none] at hfits

/-- The difference stands behind a factorial, which completes a value, and before a function; the three
products before it are implied. -/
theorem fits_difference : ∃ before after : List Token,
    ofSource "2 i pi x!-f(+1) y" = .ok (before ++ .op ⟨"-", .between⟩ :: after) ∧ before.length = 8 ∧
      Fits before.getLast? (.op ⟨"-", .between⟩) after.head? := by
  have hts : ofSource "2 i pi x!-f(+1) y" = .ok
      ([.number (.real 2.0), .op .times, .number (.complex Complex.i), .op .times, .number (.real Real.pi),
        .op .times, .name "x" [], .op ⟨"fact", .after⟩] ++ .op ⟨"-", .between⟩ ::
        [.function "f", .mark .openRound, .op ⟨"+u", .before⟩, .number (.real 1.0), .mark .closeRound,
          .op .times, .name "y" []]) := by
    decide +kernel
  exact ⟨_, _, hts, rfl, fits_of_ofSource hts⟩

end Token

end MathExpr
