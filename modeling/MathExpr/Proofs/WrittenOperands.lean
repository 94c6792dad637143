import MathExpr.Display.Source
import MathExpr.Proofs.Delimiters
import MathExpr.Proofs.Nesting

/-!
# Operands that are read back

Values that are written as one lexeme, calls, lists and subscripts are written in one piece: whatever
operators and brackets are around them, what is written for them is read back as one value
(`Tree.IsOperand.exists_isPiece`). Of the arguments of a call it is only asked that each of them is read back
on its own (`Tree.ReadsBack`).
-/

namespace MathExpr

open Arrangement (startsList)

/-! ### Texts without blanks at their ends -/

namespace Text

/-- A text that neither starts nor ends with a blank, and is not empty. -/
structure IsTrimmed (cs : List Char) : Prop where
  head : ∃ c, cs.head? = some c ∧ isBlank c = false
  last : ∃ c, cs.getLast? = some c ∧ isBlank c = false

variable {cs : List Char}

theorem isTrimmed_of_forall (hne : cs ≠ []) (h : ∀ c ∈ cs, isBlank c = false) : IsTrimmed cs := by
  refine ⟨⟨cs.head hne, List.head?_eq_some_head hne, h _ (List.head_mem hne)⟩,
    ⟨cs.getLast hne, List.getLast?_eq_some_getLast hne, h _ (List.getLast_mem hne)⟩⟩

theorem IsTrimmed.ne_nil (h : IsTrimmed cs) : cs ≠ [] := by
  rintro rfl
  obtain ⟨c, hc, -⟩ := h.head
  cases hc

theorem IsTrimmed.append_of_head {before : List Char} (h : IsTrimmed cs)
    (hbefore : ∀ c ∈ before.head?, isBlank c = false) : IsTrimmed (before ++ cs) := by
  refine ⟨?_, ?_⟩
  · cases before with
    | nil => exact h.head
    | cons c before => exact ⟨c, rfl, hbefore c rfl⟩
  · rw [List.getLast?_append_of_ne_nil _ h.ne_nil]
    exact h.last

theorem IsTrimmed.append_of_last {after : List Char} (h : IsTrimmed cs)
    (hafter : ∀ c ∈ after.getLast?, isBlank c = false) : IsTrimmed (cs ++ after) := by
  refine ⟨?_, ?_⟩
  · rw [List.head?_append_of_ne_nil _ h.ne_nil]
    exact h.head
  · by_cases hnil : after = []
    · rw [hnil, List.append_nil]
      exact h.last
    · rw [List.getLast?_append_of_ne_nil _ hnil]
      exact ⟨_, List.getLast?_eq_some_getLast hnil, hafter _ (List.getLast?_eq_some_getLast hnil)⟩

theorem IsTrimmed.stripChars_eq (h : IsTrimmed cs) : stripChars cs = cs := by
  have hdrop {cs : List Char} (h : ∃ c, cs.head? = some c ∧ isBlank c = false) :
      cs.dropWhile isBlank = cs := by
    obtain ⟨c, hc, hblank⟩ := h
    obtain ⟨rest, rfl⟩ := List.head?_eq_some_iff.1 hc
    exact List.dropWhile_cons_of_neg (by simp [hblank])
  rw [stripChars, trimBoth, hdrop h.head, hdrop (by simpa using h.last), List.reverse_reverse]

/-- Printing characters of ASCII are not blank. -/
theorem isBlank_of_ascii {c : Char} (hlow : 0x20 < c.toNat) (hhigh : c.toNat < 0x80) : isBlank c = false := by
  rw [Bool.eq_false_iff]
  intro h
  simp [isBlank, blankRanges, Ranges.contains] at h
  omega

end Text

/-! ### The characters of lexemes -/

namespace Lexeme

open Text (isBlank IsTrimmed isBlank_of_ascii isTrimmed_of_forall)

/-- The characters of numbers and names. -/
def isPieceChar (c : Char) : Bool :=
  c.isAlphanum || ['_', '\x27', '$', '?', ':', '.'].contains c

variable {l : Lexeme} {cs tail : List Char}

theorem isBlank_of_isAlphanum {c : Char} (h : c.isAlphanum = true) : isBlank c = false := by
  have hrange : 48 ≤ c.val.toNat ∧ c.val.toNat ≤ 122 := by
    rcases Bool.or_eq_true_iff.1 (show (c.isAlpha || c.isDigit) = true from h) with hletter | hdigit
    · rcases Bool.or_eq_true_iff.1 (show (c.isUpper || c.isLower) = true from hletter) with hupper | hlower
      · obtain ⟨hge, hle⟩ := of_decide_eq_true hupper
        have hge : 65 ≤ c.val.toNat := hge
        have hle : c.val.toNat ≤ 90 := hle
        omega
      · obtain ⟨hge, hle⟩ := Bool.and_eq_true_iff.1 (show (decide _ && decide _) = true from hlower)
        have hge : 97 ≤ c.val.toNat := of_decide_eq_true hge
        have hle : c.val.toNat ≤ 122 := of_decide_eq_true hle
        omega
    · obtain ⟨hge, hle⟩ := Bool.and_eq_true_iff.1 (show (decide _ && decide _) = true from hdigit)
      have hge : 48 ≤ c.val.toNat := of_decide_eq_true hge
      have hle : c.val.toNat ≤ 57 := of_decide_eq_true hle
      omega
  exact isBlank_of_ascii (show 32 < c.val.toNat by omega) (show c.val.toNat < 128 by omega)

theorem isBlank_of_isPieceChar {c : Char} (h : isPieceChar c = true) : isBlank c = false := by
  rcases Bool.or_eq_true_iff.1 h with h | h
  · exact isBlank_of_isAlphanum h
  · have hall : (['_', '\x27', '$', '?', ':', '.'].all fun c => !isBlank c) = true := by decide
    simpa using List.all_eq_true.1 hall c (List.contains_iff_mem.1 h)

theorem isPieceChar_of_isDigit {c : Char} (h : c.isDigit = true) : isPieceChar c = true := by
  simp [isPieceChar, Char.isAlphanum, h]

theorem isPieceChar_of_isNameChar {c : Char} (h : isNameChar c = true) : isPieceChar c = true := by
  rcases Bool.or_eq_true_iff.1 h with h | h
  · simp [isPieceChar, h]
  · simp [isPieceChar, eq_of_beq h]

theorem isPieceChar_of_isAsciiLetter {c : Char} (h : isAsciiLetter c = true) : isPieceChar c = true := by
  simp [isPieceChar, Char.isAlphanum, show c.isAlpha = true from h]

theorem IsNumber.isPieceChar {x : Float} (h : IsNumber x cs tail) : ∀ c ∈ cs, isPieceChar c = true := by
  cases h with
  | whole _ hds => exact fun c hc => isPieceChar_of_isDigit (hds c hc)
  | decimal _ hds _ hfs =>
      refine List.forall_mem_append.2 ⟨fun c hc => isPieceChar_of_isDigit (hds c hc), ?_⟩
      exact List.forall_mem_cons.2 ⟨by decide, fun c hc => isPieceChar_of_isDigit (hfs c hc)⟩

theorem IsPlainName.isPieceChar (h : IsPlainName cs tail) : ∀ c ∈ cs, isPieceChar c = true := by
  cases h with
  | anyMore => exact List.all_eq_true.1 (show ['?', '?'].all Lexeme.isPieceChar = true by decide)
  | anything => exact List.forall_mem_singleton.2 (by decide)
  | word hdollar hc hbody hprimes =>
      refine List.forall_mem_append.2 ⟨List.forall_mem_append.2 ⟨?_, List.forall_mem_cons.2 ⟨?_, ?_⟩⟩, ?_⟩
      · rcases hdollar with rfl | rfl
        · exact List.forall_mem_nil _
        · exact List.forall_mem_singleton.2 (by decide)
      · rcases Bool.or_eq_true_iff.1 hc with hc | hc
        · exact isPieceChar_of_isAsciiLetter hc
        · rw [eq_of_beq hc]
          decide
      · exact fun c hc => isPieceChar_of_isNameChar (hbody c hc)
      · intro c hc
        rw [eq_of_beq (hprimes c hc)]
        decide

theorem IsName.isPieceChar {hints : List String} {s : String} (h : IsName hints s cs tail) :
    ∀ c ∈ cs, isPieceChar c = true := by
  induction h with
  | plain hplain => exact hplain.isPieceChar
  | hint _ hletters _ ih =>
      refine List.forall_mem_append.2 ⟨fun c hc => isPieceChar_of_isAsciiLetter (hletters c hc), ?_⟩
      exact List.forall_mem_cons.2 ⟨by decide, ih⟩

theorem isBlank_of_spells {word : String} (hword : word ∈ reservedWords) (h : Spells word.toList cs) :
    ∀ c ∈ cs, isBlank c = false := by
  have hletters := toNat_of_mem_reservedWords hword
  generalize word.toList = letters at h hletters
  induction h with
  | nil => exact List.forall_mem_nil _
  | @cons letter c _ _ hform _ ih =>
      obtain ⟨hletter, hrest⟩ := List.forall_mem_cons.1 hletters
      refine List.forall_mem_cons.2 ⟨?_, ih hrest⟩
      simp only [isForm, Bool.or_eq_true, Bool.and_eq_true, beq_iff_eq] at hform
      rcases hform with (hform | ⟨-, h | h⟩) | ⟨-, h⟩
      · refine isBlank_of_isAlphanum ?_
        rw [Char.isAlphanum, ← Text.apply_toLower (p := Char.isAlpha) (by decide), hform, hletter.1]
        rfl
      all_goals
        rw [isBlank, h]
        decide

theorem isSkipped_of_isBlank {c : Char} (h : isBlank c = false) : isSkipped c = false := by
  rw [Bool.eq_false_iff]
  intro hskipped
  simp only [isSkipped, Bool.or_eq_true, beq_iff_eq] at hskipped
  rcases hskipped with ((rfl | rfl) | rfl) | rfl <;> exact absurd h (by decide)

/-- A lexeme neither starts nor ends with a blank. -/
theorem Stands.isTrimmed (h : Stands (some l) cs tail) : IsTrimmed cs := by
  obtain ⟨c, rest, hcs⟩ := h.exists_cons
  have hne : cs ≠ [] := by rw [hcs]; exact List.cons_ne_nil c rest
  cases h with
  | number hnumber => exact isTrimmed_of_forall hne fun c hc => isBlank_of_isPieceChar (hnumber.isPieceChar c hc)
  | name hname => exact isTrimmed_of_forall hne fun c hc => isBlank_of_isPieceChar (hname.isPieceChar c hc)
  | boolean hword hspells =>
      exact isTrimmed_of_forall hne (isBlank_of_spells (List.subset_append_left _ _ hword) hspells)
  | word hword hspells =>
      exact isTrimmed_of_forall hne (isBlank_of_spells (List.subset_append_right _ _ hword) hspells)
  | @sign s _ hsign =>
      have hall : (operatorSigns.all fun s => s.toList.all fun c => !isBlank c) = true := by decide +kernel
      have hs := List.all_eq_true.1 hall s (List.mem_of_find?_eq_some hsign)
      exact isTrimmed_of_forall hne fun c hc => by simpa using List.all_eq_true.1 hs c hc
  | @mark m =>
      have hblank : isBlank m.char = false := by cases m <;> decide
      exact isTrimmed_of_forall hne (List.forall_mem_singleton.2 hblank)
  | text htext =>
      cases htext with
      | @quoted quote inside hquote =>
          have hblank : isBlank quote = false := by rcases hquote with rfl | rfl <;> decide
          exact ⟨⟨quote, rfl, hblank⟩, ⟨quote, List.getLast?_concat, hblank⟩⟩

end Lexeme

/-! ### Arguments -/

namespace Tree

open Lexeme (Delimits)
open Token (ReadsBetween Expects HasEnded endsFactor)

/-- A tree is read back from what is written for it, and so if a bracket follows. -/
def ReadsBack (settings : Settings) (t : Tree) : Prop :=
  ∃ text ts u, t.source settings = .ok text ∧ Token.ofSource text = .ok ts ∧
    Token.ofSource (text ++ ")") = .ok (ts ++ [.mark .closeRound]) ∧
    ofTokens (fun _ => false) ts = .ok (some u) ∧ t.eqv u = true

/-- Operands that are written in one piece: values that are written as one lexeme, lists, calls and subscripts
whose arguments are read back. -/
inductive IsOperand (settings : Settings) : Tree → Prop
  | atom {v w : Value} {text : String} {l : Lexeme} {tok : Token}
      (htext : (leaf v).source settings = .ok text)
      (hlexeme : Lexeme.recognise text.toList = some (some l, text.length))
      (htoken : Token.ofLexeme none l = [tok]) (hvalue : tok.leaf? = some w) (heqv : v.eqv w = true) :
      IsOperand settings (leaf v)
  | list {args : List Tree} (hargs : ∀ a ∈ args, a.ReadsBack settings) :
      IsOperand settings (node .list args)
  | call {name : String} {args : List Tree}
      (hname : Lexeme.recognise name.toList = some (some (.name [] name false), name.length))
      (hcanonical : Operator.canonicalFunction name (Text.lower name) = name)
      (hcall : name ≠ "listval" ∨ args.length ≠ 2) (hargs : ∀ a ∈ args, a.ReadsBack settings) :
      IsOperand settings (node (.call name) args)
  | subscript {t i : Tree} (ht : IsOperand settings t) (hi : i.ReadsBack settings) :
      IsOperand settings (node (.call "listval") [t, i])
  | subscriptOfOperator {o : Operator} {args : List Tree} {i : Tree}
      (ht : (node (.op o) args).ReadsBack settings) (hi : i.ReadsBack settings) :
      IsOperand settings (node (.call "listval") [node (.op o) args, i])

/-- A text is in one piece: inside any frames it is read as one value. -/
structure IsClosed (text : String) (ts : List Token) (u : Tree) : Prop where
  trimmed : Text.IsTrimmed text.toList
  reads : ReadsBetween Expects text.toList ts Delimits
  last : ∃ tok, ts.getLast? = some tok ∧ HasEnded (some tok) ∧ startsList (some tok) = false
  run : ∀ (fs : List Frame) (previous : Option Token), startsList previous = true →
    (Frame.arrange fs).run previous ts = .ok (Frame.hold fs u)

/-- A tree is written in one piece, and read back as an equal one. -/
structure IsPiece (settings : Settings) (x : Tree) (text : String) (ts : List Token) (u : Tree) : Prop
    extends IsClosed text ts u where
  source : x.source settings = .ok text
  binding : Binding.ofTree settings.orExact x = .ok none
  eqv : x.eqv u = true

variable {settings : Settings} {x t i u : Tree} {text : String} {ts : List Token}

/-! #### Values that are one lexeme -/

theorem occursIn_eq_false {part cs : List Char} {c : Char} (hc : c ∈ part) (hcs : c ∉ cs) :
    Binding.occursIn part cs = false := by
  induction cs with
  | nil =>
      cases part with
      | nil => cases hc
      | cons => rfl
  | cons d cs ih =>
      rw [Binding.occursIn, ih fun h => hcs (List.mem_cons_of_mem d h), Bool.or_false, Bool.eq_false_iff]
      intro hprefix
      exact hcs ((List.isPrefixOf_iff_prefix.1 hprefix).subset hc)

/-- Numbers that are written without operators bind like none. -/
theorem ofNumber_eq_none (h : ∀ c ∈ text.toList, Lexeme.isPieceChar c = true) : Binding.ofNumber text = none := by
  have hnot {c : Char} (hc : Lexeme.isPieceChar c = false) : c ∉ text.toList := fun hmem =>
    Bool.false_ne_true (hc.symm.trans (h c hmem))
  have hblank := hnot (c := ' ') (by decide)
  have hslash := hnot (c := '/') (by decide)
  have hstar := hnot (c := '*') (by decide)
  have hpower := hnot (c := '^') (by decide)
  have hminus : text.toList.head? ≠ some '-' := fun hhead =>
    hnot (c := '-') (by decide) (List.mem_of_mem_head? hhead)
  unfold Binding.ofNumber
  rw [if_neg hminus, occursIn_eq_false (by decide) hblank, occursIn_eq_false (by decide) hblank]
  simp [hslash, hstar, hpower, hblank]

/-- What is wholly one lexeme stands there, whatever follows. -/
theorem stands_of_recognise_all {l : Lexeme}
    (h : Lexeme.recognise text.toList = some (some l, text.length)) :
    Lexeme.Stands (some l) text.toList [] := by
  obtain ⟨chunk, tail, heq, hlength, hstands⟩ := Lexeme.stands_of_recognise h
  have htail : tail = [] := by
    have := congrArg List.length heq
    rw [String.length_toList, List.length_append] at this
    exact List.eq_nil_of_length_eq_zero (by omega)
  rw [htail, List.append_nil] at heq
  rw [heq]
  rwa [htail] at hstands

/-- A lexeme that is read as a number is a number or the name of one. -/
theorem isPieceChar_of_number {l : Lexeme} {tok : Token} {cs tail : List Char}
    (h : Lexeme.Stands (some l) cs tail) (htoken : Token.ofLexeme none l = [tok]) :
    ∀ n, tok = .number n → ∀ c ∈ cs, Lexeme.isPieceChar c = true := by
  rintro n rfl
  cases h with
  | number hnumber => exact hnumber.isPieceChar
  | name hname => exact hname.isPieceChar
  | text | boolean | word | sign => cases htoken
  | @mark m => cases m <;> cases htoken

theorem binding_atom {v w : Value} {tok : Token} (htext : (leaf v).source settings = .ok text)
    (hchars : ∀ n, tok = .number n → ∀ c ∈ text.toList, Lexeme.isPieceChar c = true)
    (hvalue : tok.leaf? = some w) (heqv : v.eqv w = true) :
    Binding.ofTree settings.orExact (leaf v) = .ok none := by
  cases v with
  | number n =>
      have hsource : n.source settings.orExact = .ok text := htext
      cases tok with
      | number m =>
          change (n.source settings.orExact >>= fun text => pure (Binding.ofNumber text)) = _
          rw [hsource]
          exact congrArg Except.ok (ofNumber_eq_none (hchars m rfl))
      | text | boolean | name =>
          cases hvalue
          cases heqv
      | op | function | mark => cases hvalue
  | range r =>
      cases tok with
      | number | text | boolean | name =>
          cases hvalue
          cases heqv
      | op | function | mark => cases hvalue
  | _ => rfl

theorem readsBetween_lexeme {l : Lexeme} (h : Lexeme.Stands (some l) text.toList [])
    (htokens : ∀ previous, Expects previous → Token.ofLexeme previous l = ts) :
    ReadsBetween Expects text.toList ts Delimits := by
  obtain ⟨c, hc, hblank⟩ := h.isTrimmed.head
  obtain ⟨rest, hcs⟩ := List.head?_eq_some_iff.1 hc
  rw [hcs] at h ⊢
  refine Token.readsBetween_of_stands (Lexeme.isSkipped_of_isBlank hblank) (fun tail htail => ?_) htokens
  cases tail with
  | nil => exact h
  | cons d tail =>
      obtain ⟨hd, hround⟩ := htail d rfl
      exact h.delimited hd fun _ _ _ => hround

theorem isPiece_atom {v w : Value} {l : Lexeme} {tok : Token}
    (htext : (leaf v).source settings = .ok text)
    (hlexeme : Lexeme.recognise text.toList = some (some l, text.length))
    (htoken : Token.ofLexeme none l = [tok]) (hvalue : tok.leaf? = some w) (heqv : v.eqv w = true) :
    IsPiece settings (leaf v) text [tok] (leaf w) := by
  have hstands := stands_of_recognise_all hlexeme
  have hbinding := binding_atom htext (isPieceChar_of_number hstands htoken) hvalue heqv
  refine ⟨⟨hstands.isTrimmed, ?_, ⟨tok, rfl, ?_⟩, fun fs previous _ => ?_⟩, htext, hbinding, heqv⟩
  · exact readsBetween_lexeme hstands fun previous h => (Token.ofLexeme_of_expects h l).trans htoken
  · cases tok with
    | number | text | boolean | name => exact ⟨rfl, rfl⟩
    | op | function | mark => cases hvalue
  · exact Arrangement.run_cons_of_step (Token.step_of_leaf? hvalue ..) []

/-! #### Arguments in brackets -/

/-- The tokens of an argument, and its tree. -/
abbrev HasTree (ts : List Token) (u : Tree) : Prop := ofTokens (fun _ => false) ts = .ok (some u)

/-- A text is read as the tokens of an argument. -/
abbrev HasTokens (text : String) (ts : List Token) : Prop := ReadsBetween Expects text.toList ts Delimits

theorem exists_of_readsBack {args : List Tree} (h : ∀ a ∈ args, a.ReadsBack settings) :
    ∃ texts tss us, sourcesWith settings.orExact args = .ok texts ∧ List.Forall₂ HasTokens texts tss ∧
      List.Forall₂ HasTree tss us ∧ eqvAll args us = true := by
  induction args with
  | nil => exact ⟨[], [], [], rfl, .nil, .nil, rfl⟩
  | cons a args ih =>
      obtain ⟨ha, hargs⟩ := List.forall_mem_cons.1 h
      obtain ⟨text, ts, u, hsource, hts, hbracket, htree, heqv⟩ := ha
      obtain ⟨texts, tss, us, hsources, htokens, htrees, heqvs⟩ := ih hargs
      refine ⟨text :: texts, ts :: tss, u :: us, ?_, ?_, .cons htree htrees, ?_⟩
      · have hsource : a.sourceWith settings.orExact = .ok text := hsource
        rw [sourcesWith, hsource, hsources]
        rfl
      · exact .cons (Token.readsBetween_of_ofSource hts hbracket) htokens
      · rw [eqvAll, heqv, heqvs]
        rfl

theorem delimits_mark {m : Mark} (hm : m ≠ .openRound) (tail : List Char) : Delimits (m.char :: tail) := by
  rintro d ⟨⟩
  cases m with
  | openRound => exact absurd rfl hm
  | closeRound | openSquare | closeSquare | comma => decide

theorem hasTokens_arguments {texts : List String} {tss : List (List Token)}
    (h : List.Forall₂ HasTokens texts tss) (hne : texts ≠ []) :
    HasTokens (", ".intercalate texts) ([Token.mark .comma].intercalate tss) := by
  induction h with
  | nil => exact absurd rfl hne
  | @cons text ts texts tss htokens hrest ih =>
      cases hrest with
      | nil => simpa [HasTokens] using htokens
      | cons htokens' hrest =>
          have ih := ih (List.cons_ne_nil _ _)
          have hblank := (Token.readsBetween_blank (P := Expects) (Q := fun _ => True)).append ih
            (fun _ h => h) fun _ _ => trivial
          have hcomma := (Token.readsBetween_mark (m := .comma) (by decide) (P := fun _ => True)
            (Q := fun _ => True)).append hblank (fun _ _ => rfl) fun _ _ => trivial
          have hmore := htokens.append hcomma (fun _ _ => trivial) fun _ _ => delimits_mark (by decide) _
          simpa [HasTokens, Mark.char] using hmore

/-- Arguments in brackets. -/
theorem readsBetween_brackets {texts : List String} {tss : List (List Token)}
    (h : List.Forall₂ HasTokens texts tss) (m m' : Mark) {P : Option Token → Prop}
    {Q : List Char → Prop} (hopen : ∀ {Q}, ReadsBetween P [m.char] [.mark m] Q)
    (hm : Expects (some (.mark m))) (hm' : m' ≠ .openRound) :
    ReadsBetween P (m.char :: (", ".intercalate texts).toList ++ [m'.char])
      (.mark m :: [Token.mark .comma].intercalate tss ++ [.mark m']) Q := by
  by_cases hne : texts = []
  · subst hne
    cases h
    exact (hopen (Q := fun _ => True)).append (Token.readsBetween_mark hm' (P := fun _ => True))
      (fun _ _ => trivial) fun _ _ => trivial
  · have hinside := (hasTokens_arguments h hne).append
      (Token.readsBetween_mark hm' (P := fun _ => True) (Q := Q)) (fun _ _ => trivial)
      fun tail _ => delimits_mark hm' tail
    exact (hopen (Q := fun _ => True)).append hinside (fun _ _ => hm) fun _ _ => trivial

/-- Arguments between brackets are arranged, the last one directly inside. -/
theorem run_arguments {tss : List (List Token)} {us : List Tree} (h : List.Forall₂ HasTree tss us)
    (hne : us ≠ []) {bracket : List Tree → Frame} (hbracket : Frame.TakesArguments bracket)
    (fs : List Frame) (done : List Tree) {previous : Option Token} (hprevious : startsList previous = true) :
    ∃ a done' u, (Frame.arrange (bracket done :: fs)).run previous ([Token.mark .comma].intercalate tss) = .ok a ∧
      done' ++ [u] = done ++ us ∧ Frame.Closes a (bracket done' :: fs) u := by
  induction h generalizing done previous with
  | nil => exact absurd rfl hne
  | @cons ts u tss us htree hrest ih =>
      obtain ⟨a, hrun, hcloses⟩ :=
        Frame.run_nested (bracket done :: fs) (by simp [hbracket.operator?]) hprevious htree
      cases hrest with
      | nil => exact ⟨a, done, u, by simpa using hrun, rfl, hcloses⟩
      | cons htree' hrest =>
          obtain ⟨a', done', u', hrun', hdone, hcloses'⟩ :=
            ih (List.cons_ne_nil _ _) (done ++ [u]) (show startsList (some (.mark .comma)) = true from rfl)
          have hstep (previous : Option Token) : a.step previous (.mark .comma) =
              .ok (Frame.arrange (bracket (done ++ [u]) :: fs)) := by
            change a.comma.mapError Failure.error = _
            rw [hbracket.comma hcloses]
            rfl
          refine ⟨a', done', u', ?_, by simpa using hdone, hcloses'⟩
          rw [List.intercalate_cons_cons, List.append_assoc, Arrangement.run_append hrun,
            List.singleton_append, Arrangement.run_cons_of_step (hstep _), hrun']

/-- Arguments between brackets are arranged into one value when their bracket closes. -/
theorem run_closed {tss : List (List Token)} {us : List Tree} (h : List.Forall₂ HasTree tss us)
    {bracket : List Tree → Frame} (hbracket : Frame.TakesArguments bracket) {m m' : Mark}
    {value : List Tree → Tree} {fs : List Frame} (hstarts : startsList (some (.mark m)) = true)
    (hempty : (Frame.arrange (bracket [] :: fs)).step (some (.mark m)) (.mark m') =
      .ok (Frame.hold fs (value [])))
    (hclose : ∀ {a done u previous}, Frame.Closes a (bracket done :: fs) u →
      a.step previous (.mark m') = .ok (Frame.hold fs (value (done ++ [u])))) :
    (Frame.arrange (bracket [] :: fs)).run (some (.mark m)) ([Token.mark .comma].intercalate tss ++ [.mark m']) =
      .ok (Frame.hold fs (value us)) := by
  by_cases hne : us = []
  · subst hne
    cases h
    exact Arrangement.run_cons_of_step hempty []
  · obtain ⟨a, done, u, hrun, hdone, hcloses⟩ := run_arguments h hne hbracket fs [] hstarts
    rw [List.nil_append] at hdone
    rw [← hdone]
    exact Arrangement.run_snoc hrun (hclose hcloses)

/-! #### Calls, lists and subscripts -/

theorem isTrimmed_brackets {c d : Char} (hc : Text.isBlank c = false) (hd : Text.isBlank d = false)
    (cs : List Char) : Text.IsTrimmed (c :: cs ++ [d]) :=
  ⟨⟨c, rfl, hc⟩, ⟨d, List.getLast?_concat, hd⟩⟩

theorem isTrimmed_closing {cs : List Char} (h : Text.IsTrimmed cs) (inside : List Char) {d : Char}
    (hd : Text.isBlank d = false) : Text.IsTrimmed (cs ++ (inside ++ [d])) := by
  refine h.append_of_last ?_
  rw [List.getLast?_concat]
  rintro _ ⟨⟩
  exact hd

/-- A closing bracket ends a value. -/
theorem last_closing {m : Mark} (hm : m = .closeRound ∨ m = .closeSquare) (ts : List Token) :
    ∃ tok, (ts ++ [Token.mark m]).getLast? = some tok ∧ HasEnded (some tok) ∧
      startsList (some tok) = false := by
  refine ⟨.mark m, List.getLast?_concat, ?_⟩
  rcases hm with rfl | rfl <;> exact ⟨rfl, rfl⟩

section

variable {texts : List String} {tss : List (List Token)} {us : List Tree}

theorem isTrimmed_bracketed (text : String) : Text.IsTrimmed (bracketed text).toList := by
  simpa [bracketed] using isTrimmed_brackets (c := '(') (d := ')') rfl rfl text.toList

theorem hasTokens_bracketed (h : HasTokens text ts) :
    HasTokens (bracketed text) (.mark .openRound :: ts ++ [.mark .closeRound]) := by
  have hreads := readsBetween_brackets (.cons h .nil) .openRound .closeRound (Q := Delimits)
    (Token.readsBetween_openRound fun _ => Token.endsFactor_of_expects) rfl (by decide)
  simpa [bracketed, HasTokens, Mark.char] using hreads

theorem isClosed_group (htokens : HasTokens text ts) (htree : HasTree ts u) :
    IsClosed (bracketed text) (.mark .openRound :: ts ++ [.mark .closeRound]) u := by
  refine ⟨isTrimmed_bracketed text, hasTokens_bracketed htokens, last_closing (.inl rfl) _,
    fun fs previous hprevious => ?_⟩
  · obtain ⟨a, hrun, hcloses⟩ :=
      Frame.run_nested (.group :: fs) (by simp [Frame.operator?])
        (show startsList (some (.mark .openRound)) = true from rfl) htree
    rw [List.cons_append, Arrangement.run_cons_of_step (Frame.step_openRound hprevious)]
    exact Arrangement.run_snoc hrun (Frame.closeRound_group hcloses)

theorem isClosed_list (htokens : List.Forall₂ HasTokens texts tss) (htrees : List.Forall₂ HasTree tss us) :
    IsClosed ("[" ++ ", ".intercalate texts ++ "]")
      (.mark .openSquare :: [Token.mark .comma].intercalate tss ++ [.mark .closeSquare]) (.node .list us) := by
  refine ⟨?_, ?_, last_closing (.inr rfl) _, fun fs previous hprevious => ?_⟩
  · simpa using isTrimmed_brackets (c := '[') (d := ']') rfl rfl (", ".intercalate texts).toList
  · have hreads := readsBetween_brackets htokens .openSquare .closeSquare (P := Expects) (Q := Delimits)
      (Token.readsBetween_mark (by decide)) rfl (by decide)
    simpa [HasTokens, Mark.char] using hreads
  · rw [List.cons_append, Frame.run_openSquare fs hprevious]
    exact run_closed htrees Frame.takesArguments_list rfl (Frame.closeSquare_list_empty fs) Frame.closeSquare_list

/-- A name before a bracket is read as that of a function. -/
theorem readsBetween_function {name : String}
    (hname : Lexeme.recognise name.toList = some (some (.name [] name false), name.length)) :
    ReadsBetween Expects name.toList [.function name] (·.head? = some '(') := by
  have hstands := stands_of_recognise_all hname
  obtain ⟨c, rest, hcs⟩ := hstands.exists_cons
  obtain ⟨d, hd, hblank⟩ := hstands.isTrimmed.head
  rw [hcs] at hstands hd ⊢
  cases hd
  refine Token.readsBetween_of_stands (l := .name [] name true) (Lexeme.isSkipped_of_isBlank hblank)
    (fun tail htail => ?_) ?_
  · obtain ⟨tail, rfl⟩ := List.head?_eq_some_iff.1 htail
    exact hstands.applied tail
  · intro previous h
    rw [Token.ofLexeme_of_expects h]
    rfl

theorem isClosed_call {name : String}
    (hname : Lexeme.recognise name.toList = some (some (.name [] name false), name.length))
    (htokens : List.Forall₂ HasTokens texts tss) (htrees : List.Forall₂ HasTree tss us) :
    IsClosed (name ++ "(" ++ ", ".intercalate texts ++ ")")
      (.function name :: .mark .openRound :: [Token.mark .comma].intercalate tss ++ [.mark .closeRound])
      (.node (.call (Operator.canonicalFunction name (Text.lower name))) us) := by
  have hstands := stands_of_recognise_all hname
  refine ⟨?_, ?_, last_closing (.inl rfl) _, fun fs previous hprevious => ?_⟩
  · simpa using isTrimmed_closing (d := ')') hstands.isTrimmed ('(' :: (", ".intercalate texts).toList) rfl
  · have hfunction := readsBetween_function hname
    have hreads := hfunction.append (readsBetween_brackets htokens .openRound .closeRound (Q := Delimits)
      (Token.readsBetween_openRound (P := (endsFactor · = false)) fun _ h => h) rfl (by decide))
      (fun _ _ => rfl) fun _ _ => rfl
    simpa [HasTokens, Mark.char] using hreads
  · rw [List.cons_append, List.cons_append, Frame.run_function]
    exact run_closed htrees (Frame.takesArguments_call name) rfl (Frame.closeRound_call_empty fs name)
      Frame.closeRound_call

theorem isClosed_subscript {index : String} {is : List Token} (h : IsClosed text ts t)
    (htokens : HasTokens index is) (htree : HasTree is i) :
    IsClosed (text ++ "[" ++ index ++ "]") (ts ++ (.mark .openSquare :: is ++ [.mark .closeSquare]))
      (.node (.call "listval") [t, i]) := by
  obtain ⟨tok, hlast, hended, hstarts⟩ := h.last
  refine ⟨?_, ?_, ?_, fun fs previous hprevious => ?_⟩
  · simpa using isTrimmed_closing (d := ']') h.trimmed ('[' :: index.toList) rfl
  · have hreads := readsBetween_brackets (.cons htokens .nil) .openSquare .closeSquare (P := fun _ => True)
      (Q := Delimits) (Token.readsBetween_mark (by decide)) rfl (by decide)
    have hreads := h.reads.append hreads (fun _ _ => trivial) fun _ _ => delimits_mark (by decide) _
    simpa [HasTokens, Mark.char] using hreads
  · rw [← List.append_assoc]
    exact last_closing (.inr rfl) _
  · obtain ⟨a, hrun, hcloses⟩ :=
      Frame.run_nested (.index t [] :: fs) (by simp [Frame.operator?])
        (show startsList (some (.mark .openSquare)) = true from rfl) htree
    rw [Arrangement.run_append (h.run fs previous hprevious), hlast, Option.some_or, List.cons_append,
      Arrangement.run_cons_of_step (Frame.step_openSquare hstarts)]
    exact Arrangement.run_snoc hrun (Frame.closeSquare_index hcloses)

end

/-! #### Operands -/

theorem sourceOfCall_eq {name : String} {args : List Tree} (h : name ≠ "listval" ∨ args.length ≠ 2)
    (texts : List String) : sourceOfCall name args texts = name ++ "(" ++ ", ".intercalate texts ++ ")" := by
  unfold sourceOfCall
  split
  · rw [if_neg (by simpa using h)]
  · rfl

/-- Only operators and negative numbers are bracketed before a subscript. -/
theorem IsPiece.sourceOfCall_eq (h : IsPiece settings x text ts u) (i : Tree) (index : String) :
    sourceOfCall "listval" [x, i] [text, index] = text ++ "[" ++ index ++ "]" := by
  have hsource := h.source
  have hbinding := h.binding
  cases x with
  | leaf v =>
      cases v with
      | number n =>
          have hsource : n.source settings.orExact = .ok text := hsource
          change (n.source settings.orExact >>= fun text => pure (Binding.ofNumber text)) = _ at hbinding
          rw [hsource] at hbinding
          have hnone : Binding.ofNumber text = none := Except.ok.inj hbinding
          have hminus : text.toList.head? ≠ some '-' := by
            intro hminus
            rw [Binding.ofNumber, if_pos hminus] at hnone
            cases hnone
          -- with a minus it would bind as a sign does
          simp [sourceOfCall, hminus]
      | _ => rfl
  | node head args =>
      cases head with
      | op o => cases hbinding
      | call | list => rfl

theorem exists_isPiece_subscript {a : Tree} {target : String} (htarget : a.source settings = .ok target)
    (h : IsClosed text ts t) (heqv : a.eqv t = true) (hi : i.ReadsBack settings)
    (hwritten : ∀ index, sourceOfCall "listval" [a, i] [target, index] = text ++ "[" ++ index ++ "]") :
    ∃ text ts u, IsPiece settings (node (.call "listval") [a, i]) text ts u := by
  obtain ⟨index, is, v, hindex, his, hbracket, htree, heqvi⟩ := hi
  refine ⟨_, _, _, isClosed_subscript h (Token.readsBetween_of_ofSource his hbracket) htree, ?_, rfl, ?_⟩
  · have htarget : a.sourceWith settings.orExact = .ok target := htarget
    have hindex : i.sourceWith settings.orExact = .ok index := hindex
    rw [Tree.source, sourceWith, sourcesWith, sourcesWith, sourcesWith, htarget, hindex, ← hwritten]
    rfl
  · simp [eqv, eqvAll, Head.eqv, heqv, heqvi]

/-- Operands are written in one piece. -/
theorem IsOperand.exists_isPiece (h : x.IsOperand settings) : ∃ text ts u, IsPiece settings x text ts u := by
  induction h with
  | atom htext hlexeme htoken hvalue heqv => exact ⟨_, _, _, isPiece_atom htext hlexeme htoken hvalue heqv⟩
  | @list args hargs =>
      obtain ⟨texts, tss, us, hsources, htokens, htrees, heqv⟩ := exists_of_readsBack hargs
      refine ⟨_, _, _, isClosed_list htokens htrees, ?_, rfl, heqv⟩
      rw [Tree.source, sourceWith, hsources]
      rfl
  | @call name args hname hcanonical hcall hargs =>
      obtain ⟨texts, tss, us, hsources, htokens, htrees, heqv⟩ := exists_of_readsBack hargs
      have hclosed := isClosed_call hname htokens htrees
      rw [hcanonical] at hclosed
      refine ⟨_, _, _, hclosed, ?_, rfl, ?_⟩
      · rw [Tree.source, sourceWith, hsources, ← Tree.sourceOfCall_eq hcall]
        rfl
      · simpa [eqv, Head.eqv] using heqv
  | @subscript t i _ hi ih =>
      obtain ⟨text, ts, u, hpiece⟩ := ih
      exact exists_isPiece_subscript hpiece.source hpiece.toIsClosed hpiece.eqv hi (hpiece.sourceOfCall_eq i)
  | @subscriptOfOperator o args i ht hi =>
      obtain ⟨text, ts, u, htext, hts, hbracket, htree, heqv⟩ := ht
      exact exists_isPiece_subscript htext
        (isClosed_group (Token.readsBetween_of_ofSource hts hbracket) htree) heqv hi fun _ => rfl

end Tree

end MathExpr
