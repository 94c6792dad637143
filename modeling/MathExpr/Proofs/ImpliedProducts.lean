import Mathlib.Data.List.Basic
import MathExpr.Proofs.LexicalGrammar
import MathExpr.Proofs.Outcome
import MathExpr.Token.Basic

/-!
# Implied products

A product sign that is left out may as well be written: with a `*` directly before each lexeme
that a product is implied before (`Token.spellProducts`), source text has the same tokens
(`Token.ofSource_explicitProducts`).

The lexemes themselves stay the same, because each depends on no more of what follows than its
first characters, and a product sign there ends it as well as what it stands before
(`Lexeme.Stands.follow`). The one thing that a product sign would change is whether a bracket
follows a name at once, and before such a bracket no product is implied.
-/

namespace MathExpr

namespace Lexeme

/-! ### What a lexeme depends on -/

/-- The characters that a factor starts with which a product may be implied before. -/
def startsFactor (c : Char) : Bool := c.isDigit || startsName c || c == '('

/-- What a lexeme sees of a text that has changed behind it: the next character is the same, or is a
product sign before a factor. A point still belongs to a sign, and a letter that is no ASCII letter to an
operator. -/
structure Follows (tail tail' : List Char) : Prop where
  head : tail'.head? = tail.head? ∨
    tail'.head? = some '*' ∧ ∃ c ∈ tail.head?, startsFactor c = true
  colon : tail.head? ≠ some ':'
  point : tail.head? = some '.' → tail'.take 2 = ['.', '.']
  letter : ∀ c ∈ tail.head?, 128 ≤ c.toNat → isForm 'i' c = true ∧
    ∃ d rest second, tail' = c :: d :: rest ∧ second ∈ ['m', 's', 'n'] ∧ isForm second d = true

variable {tail tail' : List Char}

/-- What holds of the next character holds in the changed text, if it holds of a product sign. -/
theorem Follows.forall_head {P : Char → Prop} (h : Follows tail tail') (hstar : P '*')
    (htail : ∀ c ∈ tail.head?, P c) : ∀ c ∈ tail'.head?, P c := by
  intro c hc
  rcases h.head with hhead | ⟨hhead, -⟩
  · exact htail c (hhead ▸ hc)
  · cases hhead.symm.trans hc
    exact hstar

theorem Follows.head_ne {c : Char} (h : Follows tail tail') (hc : c ≠ '*')
    (htail : tail.head? ≠ some c) : tail'.head? ≠ some c := by
  rcases h.head with hhead | ⟨hhead, -⟩
  · rwa [hhead]
  · rw [hhead]
    exact fun h => hc (Option.some.inj h).symm

/-! ### Lexemes in a changed text -/

theorem IsNumber.follow {x : Float} {cs : List Char} (h : IsNumber x cs tail)
    (hf : Follows tail tail') : IsNumber x cs tail' := by
  cases h with
  | whole hne hds htail hpoint =>
      refine .whole hne hds (hf.forall_head (by decide) htail) fun rest hrest c hc => ?_
      subst hrest
      rcases hf.head with hhead | ⟨hhead, -⟩
      · have hrest := hf.point hhead.symm
        cases rest with
        | nil => cases hc
        | cons d rest =>
            cases hc
            simp only [List.take_succ_cons, List.take_zero, List.cons.injEq] at hrest
            rw [hrest.2.1]
            decide
      · cases hhead
  | decimal hne hds hne' hfs htail =>
      exact .decimal hne hds hne' hfs (hf.forall_head (by decide) htail)

theorem IsPlainName.follow {cs : List Char} (h : IsPlainName cs tail) (hf : Follows tail tail') :
    IsPlainName cs tail' := by
  cases h with
  | anyMore => exact .anyMore
  | anything htail => exact .anything (hf.head_ne (by decide) htail)
  | word hdollar hc hbody hprimes htail hend =>
      exact .word hdollar hc hbody hprimes (hf.forall_head (by decide) htail)
        fun hnil => hf.forall_head (by decide) (hend hnil)

theorem IsName.follow {hints : List String} {s : String} {cs : List Char}
    (h : IsName hints s cs tail) (hf : Follows tail tail') : IsName hints s cs tail' := by
  induction h with
  | plain hplain => exact .plain (hplain.follow hf)
  | hint hne hletters _ ih => exact .hint hne hletters (ih hf)

/-- A name of letters goes on as long as it can. -/
theorem IsName.endsWord {hints : List String} {s : String} {cs : List Char}
    (h : IsName hints s cs tail) (hcs : ∀ c ∈ cs, c.isAlpha = true ∨ 128 ≤ c.toNat) :
    EndsWord tail := by
  have hother {c : Char} (hc : c.isAlpha = false) (hc' : c.toNat < 128) : c ∉ cs := by
    intro hmem
    rcases hcs c hmem with h | h
    · exact Bool.false_ne_true (hc.symm.trans h)
    · omega
  cases h with
  | hint => exact (hother (c := ':') (by decide) (by decide) (by simp)).elim
  | plain hplain =>
      have hname := hplain.isNameChar_tail fun c hc =>
        ⟨fun h => hother (by decide) (by decide) (h ▸ hc), fun h => hother (by decide) (by decide) (h ▸ hc)⟩
      have hprime : ∀ d ∈ tail.head?, (d == '\x27') = false := by
        cases hplain with
        | word _ _ _ _ htail _ => exact htail
        | anyMore | anything => exact (hother (c := '?') (by decide) (by decide) (by simp)).elim
      intro d hd
      have hd' := hname d hd
      simp only [isNameChar, Bool.or_eq_false_iff] at hd'
      simp [isWordChar, hd', hprime d hd]

theorem letter_of_spells {word cs : List Char} (hword : ∀ letter ∈ word, letter.isAlpha = true)
    (h : Spells word cs) : ∀ c ∈ cs, c.isAlpha = true ∨ 128 ≤ c.toNat := by
  induction h with
  | nil => exact List.forall_mem_nil _
  | cons hform _ ih =>
      exact List.forall_mem_cons.2 ⟨isAlpha_of_isForm (hword _ List.mem_cons_self) hform,
        ih fun l hl => hword l (List.mem_cons_of_mem _ hl)⟩

/-- In a reserved word an `i` that is not the first letter is followed by a letter that is the second of no
operator that starts with an `i`. -/
theorem after_i_of_reserved {word : String} (hword : word ∈ reservedWords) {before after : List Char}
    (hletters : word.toList = before ++ 'i' :: after) (hbefore : before ≠ []) :
    ∃ next ∈ ['e', 'v', 'd'], after.head? = some next := by
  have hall : ∀ word ∈ reservedWords, word.toList.length ≤ 7 ∧ ∀ i < 7, word.toList[i + 1]? = some 'i' →
      ['e', 'v', 'd'].any (word.toList[i + 2]? == some ·) = true := by decide +kernel
  simp only [List.any_eq_true, beq_iff_eq] at hall
  obtain ⟨hlength, hnext⟩ := hall word hword
  obtain ⟨c, before, rfl⟩ := List.exists_cons_of_ne_nil hbefore
  rw [hletters] at hlength hnext
  have hi := hnext before.length (by simp at hlength; omega) (by simp)
  simpa [List.getElem?_append, List.head?_eq_getElem?] using hi

/-- No reserved word starts as a name and goes on with what stands behind it. -/
theorem IsName.not_spells_across {hints : List String} {s : String} {cs : List Char}
    (h : IsName hints s cs tail) {word : String} (hword : word ∈ reservedWords)
    {before after more rest : List Char} {letter a : Char}
    (hsplit : word.toList = before ++ letter :: after) (hbefore : Spells before cs)
    (hletter : isForm letter a = true) (hafter : Spells after more) (htail : tail' = a :: more ++ rest)
    (hf : Follows tail tail') : False := by
  have hletters := toNat_of_mem_reservedWords hword
  rw [hsplit] at hletters
  obtain ⟨halpha, hascii⟩ := hletters letter (by simp)
  have ha : tail.head? = some a := by
    rcases hf.head with hhead | ⟨hhead, -⟩
    · rw [← hhead, htail]
      rfl
    · rw [htail] at hhead
      cases hhead
      rcases isAlpha_of_isForm halpha hletter with h | h
      · exact absurd h (by decide)
      · exact absurd h (by decide)
  -- The name is as long as it can be, so that the next letter is no ASCII letter: it is an `i`.
  have hword' : isWordChar a = false :=
    h.endsWord (letter_of_spells (fun l hl => (hletters l (List.mem_append_left _ hl)).1) hbefore) a ha
  have hlarge : 128 ≤ a.toNat := by
    rcases isAlpha_of_isForm halpha hletter with h | h
    · simp [isWordChar, Char.isAlphanum, h] at hword'
    · exact h
  obtain ⟨hi, d, rest', second, htail', hsecond, hd⟩ := hf.letter a ha hlarge
  have hne : before ≠ [] := by
    rintro rfl
    cases hbefore
    obtain ⟨c, rest, hcs, -⟩ := h.exists_cons
    cases hcs
  obtain rfl := eq_of_isForm hascii (by decide) hletter hi
  obtain ⟨next, hnext, hhead⟩ := after_i_of_reserved hword hsplit hne
  obtain ⟨after, rfl⟩ := List.head?_eq_some_iff.1 hhead
  -- Operators that start with an `i` go on with another letter.
  cases hafter with
  | @cons _ e _ more hform _ =>
      obtain ⟨-, hmore⟩ := List.cons.inj (htail.symm.trans htail')
      obtain ⟨rfl, -⟩ := List.cons.inj hmore
      have hall : (['e', 'v', 'd'].all fun next => ['m', 's', 'n'].all fun second =>
          decide (next.toNat < 128 ∧ second.toNat < 128 ∧ next ≠ second)) = true := by decide
      simp only [List.all_eq_true, decide_eq_true_eq] at hall
      obtain ⟨hnext', hsecond', hdiffer⟩ := hall next hnext second hsecond
      exact hdiffer (eq_of_isForm hnext' hsecond' hform hd)

/-- No reserved word comes to stand where a name stands. -/
theorem IsName.avoidsWords_follow {hints : List String} {s : String} {cs : List Char}
    (h : IsName hints s cs tail) (havoids : AvoidsWords (cs ++ tail)) (hf : Follows tail tail') :
    AvoidsWords (cs ++ tail') := by
  intro word hword
  have hletters := toNat_of_mem_reservedWords hword
  rw [Bool.eq_false_iff]
  intro hstarts
  have havoids : ∀ chunk rest, cs ++ tail = chunk ++ rest → Spells word.toList chunk →
      ¬EndsWord rest := fun chunk rest heq hspells hend =>
    Bool.false_ne_true ((havoids word hword).symm.trans
      (startsWithWord_iff.2 ⟨chunk, rest, heq, hspells, hend⟩))
  have hexact : ¬Spells word.toList cs := fun hspells =>
    havoids cs tail rfl hspells (h.endsWord (letter_of_spells (fun l hl => (hletters l hl).1) hspells))
  obtain ⟨chunk, rest, heq, hspells, hend⟩ := startsWithWord_iff.1 hstarts
  rcases List.append_eq_append_iff.1 heq with ⟨more, rfl, htail⟩ | ⟨more, rfl, hrest⟩
  · -- the word would go on behind the name
    cases more with
    | nil => exact hexact (by simpa using hspells)
    | cons a more =>
        have hbefore := List.forall₂_take_append _ _ _ hspells
        have hafter := List.forall₂_drop_append _ _ _ hspells
        have hsplit := List.take_append_drop cs.length word.toList
        generalize word.toList.take cs.length = before at hbefore hsplit
        generalize word.toList.drop cs.length = after at hafter hsplit
        cases hafter with
        | @cons letter _ after _ hletter hafter =>
            exact h.not_spells_across hword hsplit.symm hbefore hletter hafter htail hf
  · cases more with
    | nil => exact hexact (by simpa using hspells)
    | cons a more =>
        refine havoids chunk (a :: more ++ tail) (by simp) hspells fun c hc => ?_
        exact hend c (by rw [hrest]; exact hc)

/-- A pair of characters is not completed, nor broken, by a change behind its first character. -/
theorem Follows.isPrefixOf_pair (h : Follows tail tail') {second : Char} (hstar : second ≠ '*')
    (hfactor : startsFactor second = false) (first c : Char) (cs : List Char) :
    [first, second].isPrefixOf (c :: cs ++ tail') = [first, second].isPrefixOf (c :: cs ++ tail) := by
  cases cs with
  | cons d cs => rfl
  | nil =>
      have hsecond : tail'.head? = some second ↔ tail.head? = some second := by
        rcases h.head with hhead | ⟨hhead, d, hd, hfactor'⟩
        · rw [hhead]
        · rw [hhead, Option.mem_def.1 hd, Option.some.injEq, Option.some.injEq]
          refine iff_of_false hstar.symm fun hd => ?_
          rw [hd, hfactor] at hfactor'
          cases hfactor'
      have hpair (tail : List Char) : [first, second].isPrefixOf (c :: [] ++ tail) =
          (first == c && decide (tail.head? = some second)) := by
        cases tail with
        | nil => simp [List.isPrefixOf]
        | cons d tail => simp [List.isPrefixOf, Bool.beq_eq_decide_eq, eq_comm]
      rw [hpair, hpair, decide_eq_decide.2 hsecond]

theorem longestSign?_follow (h : Follows tail tail') (c : Char) (cs : List Char) :
    longestSign? (c :: cs ++ tail') = longestSign? (c :: cs ++ tail) := by
  have hall : ∀ s ∈ operatorSigns, s.toList.length = 1 ∨ s.toList.length = 2 ∧
      (s.toList.drop 1).all (fun second => second != '*' && !startsFactor second) = true := by decide +kernel
  simp only [List.all_eq_true, Bool.and_eq_true, bne_iff_ne, Bool.not_eq_true'] at hall
  refine find?_congr_of_mem fun s hs => ?_
  rcases hall s hs with hone | ⟨htwo, hsecond⟩
  · obtain ⟨first, hchars⟩ := List.length_eq_one_iff.1 hone
    simp [hchars, List.isPrefixOf]
  · obtain ⟨first, second, hchars⟩ := List.length_eq_two.1 htwo
    rw [hchars] at hsecond ⊢
    obtain ⟨hstar, hfactor⟩ := hsecond second (by simp)
    exact h.isPrefixOf_pair hstar hfactor first c cs

theorem commentLength_follow (h : Follows tail tail') (c : Char) (cs : List Char)
    (hcomment : commentLength (c :: cs ++ tail) = none) : commentLength (c :: cs ++ tail') = none := by
  rw [commentLength_eq_none_iff] at hcomment ⊢
  rw [h.isPrefixOf_pair (by decide) (by decide), hcomment]

/-- A lexeme stays a lexeme where a product sign comes to follow it, unless it is a name that a bracket
follows. -/
theorem Stands.follow {l : Option Lexeme} {cs : List Char} (h : Stands l cs tail)
    (hf : Follows tail tail')
    (happlied : ∀ hints s, l = some (.name hints s true) → tail'.head? = tail.head?) :
    Stands l cs tail' := by
  cases h with
  | comment hcs htail =>
      refine .comment hcs ?_
      rcases hf.head with hhead | ⟨-, c, hc, hfactor⟩
      · rwa [hhead]
      · -- a comment ends at the end of its line
        have hc := htail c hc
        simp only [bne_eq_false_iff_eq] at hc
        rw [hc] at hfactor
        exact absurd hfactor (by decide)
  | number hnumber => exact .number (hnumber.follow hf)
  | text htext => exact .text htext
  | boolean hword hspells hend =>
      exact .boolean hword hspells (hf.forall_head (by decide) hend)
  | word hword hspells hend => exact .word hword hspells (hf.forall_head (by decide) hend)
  | @sign s _ hsign hcomment =>
      obtain ⟨c, cs, hchars⟩ := exists_cons_of_longestSign? hsign
      refine .sign ?_ ?_
      · rw [hchars] at hsign ⊢
        rw [longestSign?_follow hf, hsign]
      · rw [hchars] at hcomment ⊢
        exact commentLength_follow hf c cs hcomment
  | @name hints s _ _ hname hwords =>
      have hround : (tail'.head? == some '(') = (tail.head? == some '(') := by
        by_cases hopen : tail.head? = some '('
        · rw [happlied hints s (by simp [hopen])]
        · rw [beq_eq_false_iff_ne.2 hopen, beq_eq_false_iff_ne.2 (hf.head_ne (by decide) hopen)]
      rw [← hround]
      exact .name (hname.follow hf) (hname.avoidsWords_follow hwords hf)
  | mark => exact .mark

/-! ### What lexemes start with -/

/-- What holds of the first character of each lexeme: only an operator starts with a point or with a letter
that is no ASCII letter. -/
structure Starts (c : Char) (cs : List Char) : Prop where
  colon : c ≠ ':'
  point : c = '.' → cs = ['.']
  letter : 128 ≤ c.toNat → isForm 'i' c = true ∧
    ∃ d rest second, cs = d :: rest ∧ second ∈ ['m', 's', 'n'] ∧ isForm second d = true

theorem starts_of_ascii {c : Char} (hcolon : c ≠ ':') (hpoint : c ≠ '.') (hascii : c.toNat < 128)
    (cs : List Char) : Starts c cs :=
  ⟨hcolon, fun h => (hpoint h).elim, fun h => by omega⟩

theorem toNat_of_isAlpha {c : Char} (h : c.isAlpha = true) : c.toNat < 128 := by
  rcases Bool.or_eq_true_iff.1 (show (c.isUpper || c.isLower) = true from h) with hletter | hletter
  · have hle : c.toNat ≤ 90 := (of_decide_eq_true hletter).2
    omega
  · obtain ⟨-, hle⟩ := Bool.and_eq_true_iff.1 (show (decide _ && decide _) = true from hletter)
    have hle : c.toNat ≤ 122 := of_decide_eq_true hle
    omega

theorem starts_of_isAlpha {c : Char} (h : c.isAlpha = true) (cs : List Char) : Starts c cs := by
  refine starts_of_ascii ?_ ?_ (toNat_of_isAlpha h) cs <;>
    · rintro rfl
      exact absurd h (by decide)

theorem starts_of_isDigit {c : Char} (h : c.isDigit = true) (cs : List Char) : Starts c cs := by
  refine starts_of_ascii ?_ ?_ (toNat_of_isDigit h) cs <;>
    · rintro rfl
      exact absurd h (by decide)

theorem starts_of_startsName {c : Char} (h : startsName c = true) (cs : List Char) : Starts c cs := by
  simp only [startsName, Bool.or_eq_true, beq_iff_eq] at h
  rcases h with ((h | rfl) | rfl) | rfl
  · exact starts_of_isAlpha h cs
  all_goals exact starts_of_ascii (by decide) (by decide) (by decide) cs

theorem toNat_of_startsFactor {c : Char} (h : startsFactor c = true) : c.toNat < 128 := by
  simp only [startsFactor, startsName, Bool.or_eq_true, beq_iff_eq] at h
  rcases h with (h | ((h | rfl) | rfl) | rfl) | rfl
  · exact toNat_of_isDigit h
  · exact toNat_of_isAlpha h
  all_goals decide

theorem Spells.starts {word : String} (hword : word ∈ reservedWords) {c : Char} {cs : List Char}
    (h : Spells word.toList (c :: cs)) : Starts c cs := by
  have hall : ∀ word ∈ reservedWords, word.toList.head? ≠ some 's' ∧ (word.toList.head? = some 'i' →
      ['m', 's', 'n'].any (word.toList[1]? == some ·) = true) := by decide +kernel
  simp only [List.any_eq_true, beq_iff_eq] at hall
  have hfirst := hall word hword
  have hletters := toNat_of_mem_reservedWords hword
  generalize word.toList = letters at h hfirst hletters
  cases h with
  | @cons letter _ letters _ hform hspells =>
      rcases isAlpha_of_isForm (hletters letter List.mem_cons_self).1 hform with halpha | hlarge
      · exact starts_of_isAlpha halpha cs
      -- of the letters with another form, words start with an `i` only
      have hi : letter = 'i' := by
        have hascii := (hletters letter List.mem_cons_self).2
        simp only [isForm, Bool.or_eq_true, Bool.and_eq_true, beq_iff_eq, Text.toLower_of_le hlarge] at hform
        rcases hform with (rfl | ⟨hi, -⟩) | ⟨rfl, -⟩
        · omega
        · exact hi
        · exact (hfirst.1 rfl).elim
      subst hi
      obtain ⟨second, hsecond, hhead⟩ := hfirst.2 rfl
      refine ⟨?_, ?_, fun _ => ⟨hform, ?_⟩⟩
      · rintro rfl
        exact absurd hlarge (by decide)
      · rintro rfl
        exact absurd hlarge (by decide)
      · cases hspells with
        | nil => cases hhead
        | @cons _ d _ rest hd =>
            cases hhead
            exact ⟨d, rest, second, rfl, hsecond, hd⟩

theorem Stands.starts {l : Option Lexeme} {c : Char} {cs : List Char} (h : Stands l (c :: cs) tail) :
    Starts c cs := by
  generalize hchars : c :: cs = chars at h
  cases h with
  | comment =>
      cases hchars
      exact starts_of_ascii (by decide) (by decide) (by decide) _
  | number hnumber =>
      obtain ⟨c, cs, rfl, hc⟩ := hnumber.exists_cons
      cases hchars
      exact starts_of_isDigit hc _
  | text htext =>
      cases htext with
      | quoted hquote =>
          cases hchars
          rcases hquote with rfl | rfl <;> exact starts_of_ascii (by decide) (by decide) (by decide) _
  | boolean hword hspells =>
      exact (hchars ▸ hspells).starts (List.subset_append_left _ _ hword)
  | word hword hspells => exact (hchars ▸ hspells).starts (List.subset_append_right _ _ hword)
  | @sign s _ hsign =>
      have hall : ∀ s ∈ operatorSigns, s.toList.head?.all (fun c =>
          decide (c ≠ ':' ∧ c.toNat < 128 ∧ (c = '.' → s.toList.drop 1 = ['.']))) = true := by decide +kernel
      simp only [Option.all_eq_true, decide_eq_true_eq] at hall
      have hs := hall s (List.mem_of_find?_eq_some hsign)
      rw [← hchars] at hs
      obtain ⟨hcolon, hascii, hpoint⟩ := hs c rfl
      exact ⟨hcolon, hpoint, fun h => by omega⟩
  | name hname =>
      obtain ⟨c, cs, rfl, hc⟩ := hname.exists_cons
      cases hchars
      exact starts_of_startsName hc _
  | @mark m =>
      cases hchars
      have hall : m.char ≠ ':' ∧ m.char ≠ '.' ∧ m.char.toNat < 128 := by cases m <;> decide
      exact starts_of_ascii hall.1 hall.2.1 hall.2.2 _

/-- A text that can be read does not start with a colon. -/
theorem head?_ne_colon_of_scan {cs : List Char} {ls : List Lexeme} (h : scan cs = .ok ls) :
    cs.head? ≠ some ':' := by
  intro hcolon
  obtain ⟨rest, rfl⟩ := List.head?_eq_some_iff.1 hcolon
  rw [scan, if_neg (by decide)] at h
  split at h
  · cases h
  · rename_i hrecognise
    obtain ⟨chunk, tail, heq, -, hstands⟩ := stands_of_recognise hrecognise
    obtain ⟨c, cs, rfl⟩ := hstands.exists_cons
    cases heq
    exact hstands.starts.colon rfl

/-- A text that can be read is empty, or starts with a character that is skipped or with a lexeme. -/
theorem scan_cases {cs : List Char} {ls : List Lexeme} (h : scan cs = .ok ls) :
    cs = [] ∧ ls = [] ∨
    (∃ c rest, cs = c :: rest ∧ isSkipped c = true ∧ scan rest = .ok ls) ∨
    ∃ c chunk tail l ls', cs = c :: chunk ++ tail ∧ isSkipped c = false ∧ Stands l (c :: chunk) tail ∧
      scan tail = .ok ls' ∧ ls = l.toList ++ ls' := by
  cases cs with
  | nil =>
      rw [scan] at h
      cases h
      exact .inl ⟨rfl, rfl⟩
  | cons c rest =>
      cases hc : isSkipped c with
      | true =>
          rw [scan, if_pos hc] at h
          exact .inr (.inl ⟨c, rest, rfl, hc, h⟩)
      | false =>
          rw [scan, if_neg (by rw [hc]; exact Bool.false_ne_true)] at h
          split at h
          · cases h
          · rename_i l n hrecognise
            obtain ⟨ls', htail, hls⟩ := exists_of_bind_eq_ok h
            cases hls
            obtain ⟨chunk, tail, heq, rfl, hstands⟩ := stands_of_recognise hrecognise
            obtain ⟨d, chunk, rfl⟩ := hstands.exists_cons
            cases heq
            refine .inr (.inr ⟨_, chunk, tail, l, ls', rfl, hc, hstands, ?_, rfl⟩)
            simpa using htail

/-- Scanning goes on behind what is recognised. -/
theorem scan_of_stands {l : Option Lexeme} {c : Char} {cs : List Char} (h : Stands l (c :: cs) tail)
    (hc : isSkipped c = false) (hcolon : tail.head? ≠ some ':') :
    scan (c :: cs ++ tail) = (scan tail).map (l.toList ++ ·) := by
  have hrecognise := recognise_of_stands h hcolon
  rw [List.cons_append] at hrecognise ⊢
  rw [scan, if_neg (by rw [hc]; exact Bool.false_ne_true), hrecognise]
  change (scan ((cs ++ tail).drop cs.length)).map (l.toList ++ ·) = _
  rw [List.drop_left]

end Lexeme

open Lexeme (isSkipped recognise scan Follows)

namespace Token

/-- The tokens of a lexeme, given the token before; a comment has none. -/
def ofLexeme? (previous : Option Token) (l : Option Lexeme) : List Token :=
  l.elim [] (ofLexeme previous)

/-- Source text with a `*` directly before each lexeme that a product is implied before, given the token
before the text. What cannot be read stays as it is. -/
def spellProducts (previous : Option Token) : List Char → List Char
  | [] => []
  | c :: rest =>
    if isSkipped c then c :: spellProducts previous rest
    else
      match recognise (c :: rest) with
      | none => c :: rest
      | some (l, n) =>
        let ts := ofLexeme? previous l
        (if 1 < ts.length then ['*'] else []) ++
          (c :: rest.take (n - 1) ++ spellProducts (ts.getLast?.or previous) (rest.drop (n - 1)))
termination_by cs => cs.length
decreasing_by
  · simp
  · simp only [List.length_drop, List.length_cons]
    omega

/-- Source text with all products written. -/
def explicitProducts (s : String) : String := String.ofList (spellProducts none s.toList)

variable {previous : Option Token} {l : Option Lexeme} {tail : List Char}

/-- What is written for a text that starts with a lexeme. -/
theorem spellProducts_of_stands {c : Char} {cs : List Char} (h : Lexeme.Stands l (c :: cs) tail)
    (hc : isSkipped c = false) (hcolon : tail.head? ≠ some ':') :
    spellProducts previous (c :: cs ++ tail) =
      (if 1 < (ofLexeme? previous l).length then ['*'] else []) ++
        (c :: cs ++ spellProducts ((ofLexeme? previous l).getLast?.or previous) tail) := by
  have hrecognise := Lexeme.recognise_of_stands h hcolon
  rw [List.cons_append] at hrecognise ⊢
  rw [spellProducts, if_neg (by rw [hc]; exact Bool.false_ne_true), hrecognise]
  simp

/-- A product is implied only after the end of a factor and before the start of one. Where its sign is
written, the tokens are the same. -/
theorem ofLexeme_of_implied {l : Lexeme} (h : 1 < (ofLexeme previous l).length) :
    endsFactor previous = true ∧ ∃ t, ofLexeme previous l = [op .times, t] ∧
      ofLexeme (some (op .times)) l = [t] ∧ ofLexeme previous (.operator "*") = [op .times] := by
  have hwith (t : Token) (ht : 1 < (withProduct previous t).length) : endsFactor previous = true ∧
      ∃ t', withProduct previous t = [op .times, t'] ∧ withProduct (some (op .times)) t = [t'] ∧
        ofLexeme previous (.operator "*") = [op .times] := by
    unfold withProduct at ht
    split at ht
    · rename_i hends
      have hexpects : expectsValue previous = false := by
        unfold endsFactor at hends
        split at hends <;> first | rfl | cases hends
      refine ⟨hends, t, if_pos hends, rfl, ?_⟩
      rw [ofLexeme, hexpects]
      rfl
    · simp at ht
  cases l with
  | number x => exact hwith _ h
  | name hints s applied => exact hwith _ h
  | text | boolean | operator => simp [ofLexeme] at h
  | mark m =>
      cases m with
      | openRound => exact hwith _ h
      | _ => simp [ofLexeme] at h

/-- A product is implied before the start of a factor. -/
theorem startsFactor_of_implied {c : Char} {cs : List Char} (h : Lexeme.Stands l (c :: cs) tail)
    (himplied : 1 < (ofLexeme? previous l).length) : Lexeme.startsFactor c = true := by
  generalize hchars : c :: cs = chars at h
  cases h with
  | number hnumber =>
      obtain ⟨c, cs, rfl, hc⟩ := hnumber.exists_cons
      cases hchars
      simp [Lexeme.startsFactor, hc]
  | name hname =>
      obtain ⟨c, cs, rfl, hc⟩ := hname.exists_cons
      cases hchars
      simp [Lexeme.startsFactor, hc]
  | comment | text | boolean | word | sign => simp [ofLexeme?, ofLexeme] at himplied
  | @mark m =>
      cases m with
      | openRound =>
          cases hchars
          rfl
      | closeRound | openSquare | closeSquare | comma => simp [ofLexeme?, ofLexeme] at himplied

/-- Where no factor has just ended nothing is written. -/
theorem head?_spellProducts (h : endsFactor previous = false) (cs : List Char) :
    (spellProducts previous cs).head? = cs.head? := by
  cases cs with
  | nil => rw [spellProducts]
  | cons c rest =>
      rw [spellProducts]
      split
      · rfl
      · split
        · rfl
        · rename_i l n _
          have hnone : ¬1 < (ofLexeme? previous l).length := by
            intro himplied
            cases l with
            | none => simp [ofLexeme?] at himplied
            | some l => exact Bool.false_ne_true (h.symm.trans (ofLexeme_of_implied himplied).1)
          simp [hnone]

/-- What is written for a text that can be read looks the same from before. -/
theorem follows_spellProducts {cs : List Char} {ls : List Lexeme} (h : scan cs = .ok ls)
    (previous : Option Token) : Follows cs (spellProducts previous cs) := by
  have hcolon := Lexeme.head?_ne_colon_of_scan h
  rcases Lexeme.scan_cases h with ⟨rfl, -⟩ | ⟨c, rest, rfl, hc, -⟩ |
    ⟨c, chunk, tail, l, ls', rfl, hc, hstands, htail, -⟩
  · rw [spellProducts]
    exact ⟨.inl rfl, hcolon, nofun, nofun⟩
  · rw [spellProducts, if_pos hc]
    refine ⟨.inl rfl, hcolon, fun hpoint => ?_, fun d hd hlarge => ?_⟩
    · cases hpoint
      exact absurd hc (by decide)
    · cases hd
      simp only [isSkipped, Bool.or_eq_true, beq_iff_eq] at hc
      rcases hc with ((rfl | rfl) | rfl) | rfl <;> exact absurd hlarge (by decide)
  · obtain ⟨-, hpoint, hletter⟩ := hstands.starts
    rw [spellProducts_of_stands hstands hc (Lexeme.head?_ne_colon_of_scan htail)]
    split
    · -- a product sign is written
      rename_i himplied
      have hfactor := startsFactor_of_implied hstands himplied
      refine ⟨.inr ⟨rfl, c, rfl, hfactor⟩, hcolon, fun hhead => ?_, fun d hd hlarge => ?_⟩
      · cases hhead
        exact absurd hfactor (by decide)
      · cases hd
        have := Lexeme.toNat_of_startsFactor hfactor
        omega
    · refine ⟨.inl rfl, hcolon, fun hhead => ?_, fun d hd hlarge => ?_⟩
      · cases hhead
        rw [hpoint rfl]
        rfl
      · cases hd
        obtain ⟨hi, d, rest, second, rfl, hsecond, hd⟩ := hletter hlarge
        exact ⟨hi, d, _, second, rfl, hsecond, hd⟩

/-- The tokens of a lexeme and what follows. -/
theorem ofLexemes_append (previous : Option Token) (l : Option Lexeme) (ls : List Lexeme) :
    ofLexemes previous (l.toList ++ ls) =
      ofLexeme? previous l ++ ofLexemes ((ofLexeme? previous l).getLast?.or previous) ls := by
  cases l with
  | none => rfl
  | some l => rfl

theorem stands_times (tail : List Char) : Lexeme.Stands (some (.operator "*")) ['*'] tail :=
  .sign rfl rfl

/-- A name that a bracket follows does not end a factor. -/
theorem endsFactor_applied (previous : Option Token) (hints : List String) (s : String) :
    endsFactor ((ofLexeme? previous (some (.name hints s true))).getLast?.or previous) = false := by
  change endsFactor ((withProduct previous (function s)).getLast?.or previous) = false
  unfold withProduct
  split <;> rfl

/-- The text with its product signs can be read, and has the same tokens. -/
theorem ofLexemes_spellProducts {cs : List Char} {ls : List Lexeme} (h : scan cs = .ok ls)
    (previous : Option Token) :
    ∃ ls', scan (spellProducts previous cs) = .ok ls' ∧ ofLexemes previous ls' = ofLexemes previous ls := by
  induction hlength : cs.length using Nat.strong_induction_on generalizing cs ls previous with
  | _ n ih =>
  rcases Lexeme.scan_cases h with ⟨rfl, rfl⟩ | ⟨c, rest, rfl, hc, hrest⟩ |
    ⟨c, chunk, tail, l, ls', rfl, hc, hstands, htail, rfl⟩
  · exact ⟨[], by rw [spellProducts, scan], rfl⟩
  · obtain ⟨ls', hls', heq⟩ := ih rest.length (by simp [← hlength]) hrest previous rfl
    refine ⟨ls', ?_, heq⟩
    rw [spellProducts, if_pos hc, scan, if_pos hc, hls']
  · have hlt : tail.length < n := by
      rw [← hlength, List.length_append, List.length_cons]
      omega
    have hcolon := Lexeme.head?_ne_colon_of_scan htail
    rw [spellProducts_of_stands hstands hc hcolon, ofLexemes_append]
    generalize hlast : (ofLexeme? previous l).getLast?.or previous = last
    obtain ⟨ls₁, hls₁, heq⟩ := ih tail.length hlt htail last rfl
    have hf := follows_spellProducts htail last
    have hstands' := hstands.follow hf fun hints s happlied => by
      rw [← hlast, happlied, head?_spellProducts (endsFactor_applied previous hints s)]
    have hread := Lexeme.scan_of_stands hstands' hc (hf.head_ne (by decide) hcolon)
    rw [hls₁] at hread
    split
    · -- The product sign is a lexeme of its own, and stands for the product that was implied.
      rename_i himplied
      cases l with
      | none => simp [ofLexeme?] at himplied
      | some l =>
          obtain ⟨-, t, hts, ht, htimes⟩ := ofLexeme_of_implied himplied
          have hscan := Lexeme.scan_of_stands (stands_times (c :: chunk ++ spellProducts last tail)) rfl
            fun hhead => hstands.starts.colon (Option.some.inj hhead)
          rw [hread] at hscan
          refine ⟨_, hscan, ?_⟩
          have hlast' : last = some t := by simpa [ofLexeme?, hts] using hlast.symm
          subst hlast'
          simp [ofLexeme?, ofLexemes, hts, ht, htimes, heq]
    · refine ⟨l.toList ++ ls₁, hread, ?_⟩
      rw [ofLexemes_append, hlast, heq]

/-- Written product signs give the same tokens as implied ones. -/
theorem ofSource_explicitProducts {s : String} {ts : List Token} (h : ofSource s = .ok ts) :
    ofSource (explicitProducts s) = .ok ts := by
  obtain ⟨ls, hls, hts⟩ := exists_of_bind_eq_ok h
  obtain ⟨ls', hls', heq⟩ := ofLexemes_spellProducts hls none
  cases hts
  rw [ofSource, explicitProducts, String.toList_ofList, hls', ← heq]
  rfl

/-- A product sign is written directly before a bracket, but not before the blank that precedes it. -/
theorem ofSource_explicitProducts_beforeBracket :
    let ts := [number (.real 2), op .times, name "x" [], op .times, mark .openRound, name "n" [],
      op (.ofSymbol false "+"), number (.real 1), mark .closeRound, op .times, name "y" []]
    ofSource "2x (n+1)y" = .ok ts ∧ explicitProducts "2x (n+1)y" = "2*x *(n+1)*y" ∧
      ofSource "2*x *(n+1)*y" = .ok ts := by
  intro ts
  have hts : ofSource "2x (n+1)y" = .ok ts := by decide +kernel
  have hs : explicitProducts "2x (n+1)y" = "2*x *(n+1)*y" := by decide +kernel
  exact ⟨hts, hs, hs ▸ ofSource_explicitProducts hts⟩

end Token

end MathExpr
