import MathExpr.Proofs.ImpliedProducts
import MathExpr.Proofs.Scanning

/-!
# Texts before a delimiter

A text that can be read is read in the same way where a closing bracket, a comma, a subscript or a factorial
follows it, unless it ends in a comment (`Lexeme.readsBefore_or_comment`): with none of these characters a
lexeme goes on (`Lexeme.Stands.delimited`). Its tokens are the same wherever a value is expected before it
(`Token.readsBetween_of_ofSource`), so that texts can be put together from texts and delimiters
(`Token.ReadsBetween.append`).
-/

namespace MathExpr

namespace Lexeme

/-- Characters with which no lexeme goes on. -/
def delimiters : List Char := ['(', ')', '[', ']', ',', '!']

variable {l : Option Lexeme} {cs rest tail : List Char} {ls : List Lexeme} {d : Char}

/-! ### Lexemes at the end of a text -/

theorem isWordChar_of_delimiter (hd : d ∈ delimiters) : isWordChar d = false := by
  have hall : (delimiters.all fun d => !isWordChar d) = true := by decide
  simpa using List.all_eq_true.1 hall d hd

theorem isNameChar_of_delimiter (hd : d ∈ delimiters) : isNameChar d = false := by
  have hword := isWordChar_of_delimiter hd
  rw [isWordChar, Bool.or_eq_false_iff] at hword
  exact hword.1

theorem isDigit_of_delimiter (hd : d ∈ delimiters) : d.isDigit = false := by
  have hname := isNameChar_of_delimiter hd
  simp only [isNameChar, Char.isAlphanum, Bool.or_eq_false_iff] at hname
  exact hname.1.2

theorem ne_of_delimiter (hd : d ∈ delimiters) {c : Char} (hc : c ∉ delimiters) : d ≠ c := by
  rintro rfl
  exact hc hd

theorem IsNumber.delimited {x : Float} (h : IsNumber x cs []) (hd : d ∈ delimiters) :
    IsNumber x cs (d :: rest) := by
  have htail : ∀ c ∈ (d :: rest).head?, c.isDigit = false := by simpa using isDigit_of_delimiter hd
  cases h with
  | whole hne hds =>
      refine .whole hne hds htail fun rest' heq => ?_
      exact absurd (List.cons.inj heq).1 (ne_of_delimiter hd (by decide))
  | decimal hne hds hne' hfs => exact .decimal hne hds hne' hfs htail

theorem IsPlainName.delimited (h : IsPlainName cs []) (hd : d ∈ delimiters) :
    IsPlainName cs (d :: rest) := by
  cases h with
  | anyMore => exact .anyMore
  | anything => exact .anything (by simpa using ne_of_delimiter hd (by decide))
  | word hdollar hc hbody hprimes =>
      refine .word hdollar hc hbody hprimes ?_ fun _ => ?_
      · simpa using ne_of_delimiter hd (by decide)
      · simpa using isNameChar_of_delimiter hd

theorem IsName.delimited {hints : List String} {s : String} (h : IsName hints s cs [])
    (hd : d ∈ delimiters) : IsName hints s cs (d :: rest) := by
  generalize htail : ([] : List Char) = tail at h
  induction h with
  | plain hplain =>
      subst htail
      exact .plain (hplain.delimited hd)
  | hint hne hletters _ ih => exact .hint hne hletters (ih htail)

/-- No word has a delimiter in it. -/
theorem not_mem_of_spells {word : String} (hword : word ∈ reservedWords) (h : Spells word.toList cs)
    (hd : d ∈ delimiters) : d ∉ cs := by
  intro hmem
  have hletter := letter_of_spells (fun l hl => (toNat_of_mem_reservedWords hword l hl).1) h d hmem
  have hall : (delimiters.all fun d => !d.isAlpha && decide (d.toNat < 128)) = true := by decide
  have hd := List.all_eq_true.1 hall d hd
  simp only [Bool.and_eq_true, Bool.not_eq_true', decide_eq_true_eq] at hd
  rcases hletter with h | h
  · exact Bool.false_ne_true (hd.1.symm.trans h)
  · omega

theorem avoidsWords_delimited (h : AvoidsWords cs) (hd : d ∈ delimiters) : AvoidsWords (cs ++ d :: rest) := by
  intro word hword
  rw [Bool.eq_false_iff]
  intro hstarts
  obtain ⟨chunk, tail, heq, hspells, hend⟩ := startsWithWord_iff.1 hstarts
  have hdelimiter := not_mem_of_spells hword hspells hd
  rcases List.append_eq_append_iff.1 heq with ⟨more, rfl, hmore⟩ | ⟨more, rfl, hmore⟩
  · -- the word would have the delimiter in it, or end before it
    cases more with
    | nil =>
        refine Bool.false_ne_true ((h word hword).symm.trans (startsWithWord_iff.2 ⟨cs, [], ?_, ?_, nofun⟩))
        · rw [List.append_nil]
        · rwa [List.append_nil] at hspells
    | cons c more =>
        cases hmore
        exact hdelimiter (by simp)
  · refine Bool.false_ne_true ((h word hword).symm.trans (startsWithWord_iff.2 ⟨chunk, more, rfl, hspells, ?_⟩))
    intro c hc
    exact hend c (by rw [hmore, List.head?_append, Option.mem_def.1 hc]; rfl)

/-- No pair of characters that starts a lexeme has a delimiter in its second place. -/
theorem isPrefixOf_delimited {first second c : Char} (hsecond : second ≠ d) (cs rest : List Char) :
    [first, second].isPrefixOf (c :: cs ++ d :: rest) = [first, second].isPrefixOf (c :: cs) := by
  cases cs with
  | nil => simp [List.isPrefixOf, hsecond]
  | cons e cs => simp [List.isPrefixOf]

theorem longestSign?_delimited (hd : d ∈ delimiters) (c : Char) (cs rest : List Char) :
    longestSign? (c :: cs ++ d :: rest) = longestSign? (c :: cs) := by
  have hall : ∀ s ∈ operatorSigns, s.toList.length = 1 ∨ s.toList.length = 2 ∧
      (s.toList.drop 1).all (fun second => !delimiters.contains second) = true := by decide +kernel
  refine find?_congr_of_mem fun s hs => ?_
  rcases hall s hs with hone | ⟨htwo, hsecond⟩
  · obtain ⟨first, hchars⟩ := List.length_eq_one_iff.1 hone
    simp [hchars, List.isPrefixOf]
  · obtain ⟨first, second, hchars⟩ := List.length_eq_two.1 htwo
    rw [hchars] at hsecond ⊢
    have hsecond : second ∉ delimiters := by simpa using hsecond
    exact isPrefixOf_delimited (ne_of_delimiter hd hsecond).symm cs rest

theorem commentLength_delimited (hd : d ∈ delimiters) {c : Char} (h : commentLength (c :: cs) = none)
    (rest : List Char) : commentLength (c :: cs ++ d :: rest) = none := by
  rw [commentLength_eq_none_iff] at h ⊢
  rw [isPrefixOf_delimited (ne_of_delimiter hd (by decide)).symm, h]

/-- A lexeme at the end of a text is one where a delimiter follows; before a round bracket a name is
applied. -/
theorem Stands.delimited {l : Lexeme} (h : Stands (some l) cs []) (hd : d ∈ delimiters)
    (happlied : ∀ hints s, l = .name hints s false → d ≠ '(') : Stands (some l) cs (d :: rest) := by
  have hends : EndsWord (d :: rest) := by simpa [EndsWord] using isWordChar_of_delimiter hd
  cases h with
  | number hnumber => exact .number (hnumber.delimited hd)
  | text htext => exact .text htext
  | boolean hword hspells => exact .boolean hword hspells hends
  | word hword hspells => exact .word hword hspells hends
  | @sign s _ hsign hcomment =>
      obtain ⟨c, cs, hchars⟩ := exists_cons_of_longestSign? hsign
      rw [List.append_nil] at hsign hcomment
      refine .sign ?_ ?_
      · rw [hchars] at hsign ⊢
        rw [longestSign?_delimited hd, hsign]
      · rw [hchars] at hcomment ⊢
        exact commentLength_delimited hd hcomment rest
  | @name hints s _ _ hname hwords =>
      rw [List.append_nil] at hwords
      have hstands : Stands (some (.name hints s ((d :: rest).head? == some '('))) cs (d :: rest) :=
        .name (hname.delimited hd) (avoidsWords_delimited hwords hd)
      rwa [show ((d :: rest).head? == some '(') = (([] : List Char).head? == some '(') by
        simpa using happlied hints s rfl] at hstands
  | mark => exact .mark

/-- A name before a round bracket is applied. -/
theorem Stands.applied {hints : List String} {s : String} {applied : Bool}
    (h : Stands (some (.name hints s applied)) cs []) (rest : List Char) :
    Stands (some (.name hints s true)) cs ('(' :: rest) := by
  have hround : '(' ∈ delimiters := by decide
  cases h with
  | name hname hwords =>
      rw [List.append_nil] at hwords
      exact .name (hname.delimited hround) (avoidsWords_delimited hwords hround)

/-! ### Texts that go on -/

/-- The characters are read as some lexemes before a text for which `P` holds. -/
def ReadsBefore (P : List Char → Prop) (cs : List Char) (ls : List Lexeme) : Prop :=
  ∀ ⦃tail ls'⦄, P tail → scan tail = .ok ls' → scan (cs ++ tail) = .ok (ls ++ ls')

/-- A text that ends there, or starts with a delimiter that is no opening bracket of a call. -/
def Delimits (tail : List Char) : Prop := ∀ d ∈ tail.head?, d ∈ delimiters ∧ d ≠ '('

theorem ReadsBefore.append {P Q : List Char → Prop} {cs' : List Char} {ls' : List Lexeme}
    (h : ReadsBefore P cs ls) (h' : ReadsBefore Q cs' ls') (htail : ∀ tail, Q tail → P (cs' ++ tail)) :
    ReadsBefore Q (cs ++ cs') (ls ++ ls') := by
  intro tail more hQ hmore
  rw [List.append_assoc, List.append_assoc]
  exact h (htail tail hQ) (h' hQ hmore)

theorem readsBefore_of_stands {P : List Char → Prop} {c : Char} {l : Lexeme} (hc : isSkipped c = false)
    (h : ∀ tail, P tail → Stands (some l) (c :: cs) tail) : ReadsBefore P (c :: cs) [l] := by
  intro tail ls hP htail
  rw [scan_of_stands (h tail hP) hc (head?_ne_colon_of_scan htail), htail]
  rfl

/-- What follows a text that can be read is not seen from before it. -/
theorem follows_append (h : scan tail = .ok ls) (hne : tail ≠ []) (rest : List Char) :
    Follows tail (tail ++ rest) := by
  have hhead : (tail ++ rest).head? = tail.head? := List.head?_append_of_ne_nil _ hne
  rcases scan_cases h with ⟨rfl, -⟩ | ⟨c, cs, rfl, hc, -⟩ | ⟨c, chunk, tail, l, ls', rfl, -, hstands, -⟩
  · exact absurd rfl hne
  · have hascii : c ≠ '.' ∧ c.toNat < 128 := by
      simp only [isSkipped, Bool.or_eq_true, beq_iff_eq] at hc
      rcases hc with ((rfl | rfl) | rfl) | rfl <;> decide
    refine ⟨.inl hhead, head?_ne_colon_of_scan h, fun hpoint => ?_, fun d hd hlarge => ?_⟩
    · exact absurd (Option.some.inj hpoint) hascii.1
    · cases hd
      omega
  · obtain ⟨-, hpoint, hletter⟩ := hstands.starts
    refine ⟨.inl hhead, head?_ne_colon_of_scan h, fun hhead => ?_, fun d hd hlarge => ?_⟩
    · cases hhead
      rw [hpoint rfl]
      rfl
    · cases hd
      obtain ⟨hi, d, more, second, rfl, hsecond, hd⟩ := hletter hlarge
      exact ⟨hi, d, more ++ tail ++ rest, second, rfl, hsecond, hd⟩

/-- A bracket after a comment that no line ends belongs to it. -/
theorem scan_comment {c : Char} {chunk : List Char} (h : Stands none (c :: chunk) [])
    (hc : isSkipped c = false) : scan (c :: chunk ++ [')']) = .ok [] := by
  cases h with
  | @comment line _ hline =>
      have hlonger : Stands none ('/' :: '/' :: (line ++ [')'])) [] :=
        .comment (List.forall_mem_append.2 ⟨hline, List.forall_mem_singleton.2 (by decide)⟩) nofun
      have hscan := scan_of_stands hlonger hc nofun
      rwa [List.append_nil, scan_nil] at hscan

/-- A text that can be read is read in the same way before a delimiter, unless it ends in a comment, to
which then a bracket belongs. -/
theorem readsBefore_or_comment (h : scan cs = .ok ls) :
    ReadsBefore Delimits cs ls ∨ scan (cs ++ [')']) = .ok ls := by
  -- on the length, since a lexeme may take any number of characters
  induction hlength : cs.length using Nat.strong_induction_on generalizing cs ls with
  | _ n ih =>
  rcases scan_cases h with ⟨rfl, rfl⟩ | ⟨c, rest, rfl, hc, hrest⟩ |
    ⟨c, chunk, tail, l, ls', rfl, hc, hstands, htail, rfl⟩
  · exact .inl fun tail ls' _ htail => htail
  · have hskip (cs : List Char) : scan (c :: cs) = scan cs := scan_of_isSkipped cs hc
    refine (ih rest.length (by simp [← hlength]) hrest rfl).imp (fun hon tail ls' hd htail => ?_) fun hcomment => ?_
    · rw [List.cons_append, hskip]
      exact hon hd htail
    · rw [List.cons_append, hskip, hcomment]
  · have hread {more : List Char} {ls'' : List Lexeme} (hstands : Stands l (c :: chunk) (tail ++ more))
        (hmore : scan (tail ++ more) = .ok ls'') :
        scan (c :: chunk ++ tail ++ more) = .ok (l.toList ++ ls'') := by
      rw [List.append_assoc, scan_of_stands hstands hc (head?_ne_colon_of_scan hmore), hmore]
      rfl
    cases tail with
    | nil =>
        cases scan_nil.symm.trans htail
        cases l with
        | none =>
            rw [List.append_nil]
            exact .inr (scan_comment hstands hc)
        | some l =>
            refine .inl fun more ls'' hd hmore => ?_
            rw [List.append_assoc (Option.toList _)]
            refine hread ?_ hmore
            cases more with
            | nil => exact hstands
            | cons d more =>
                obtain ⟨hd, hround⟩ := hd d rfl
                exact hstands.delimited hd fun _ _ _ => hround
    | cons e tail =>
        have hlt : (e :: tail).length < n := by
          rw [← hlength, List.length_append, List.length_cons (a := c)]
          omega
        have hon (more : List Char) : Stands l (c :: chunk) (e :: tail ++ more) :=
          hstands.follow (follows_append htail (List.cons_ne_nil e tail) more) fun _ _ _ => rfl
        refine (ih _ hlt htail rfl).imp (fun hreads more ls'' hd hmore => ?_) fun hcomment => ?_
        · rw [List.append_assoc l.toList]
          exact hread (hon more) (hreads hd hmore)
        · exact hread (hon _) hcomment

end Lexeme

/-! ### Texts as tokens -/

namespace Token

open Lexeme (Delimits ReadsBefore scan)

/-- Behind a token for which `P` holds and before a text for which `Q` holds, the characters are read as some
tokens. -/
def ReadsBetween (P : Option Token → Prop) (cs : List Char) (ts : List Token) (Q : List Char → Prop) : Prop :=
  ∃ ls, ReadsBefore Q cs ls ∧ ∀ previous, P previous → ofLexemes previous ls = ts

/-- A value is expected. -/
abbrev Expects (previous : Option Token) : Prop := expectsValue previous = true

/-- A value has ended. -/
abbrev HasEnded (previous : Option Token) : Prop := expectsValue previous = false

variable {P P' : Option Token → Prop} {Q Q' : List Char → Prop} {cs cs' : List Char}
  {ts ts' : List Token} {previous : Option Token}

theorem endsFactor_of_expects (h : Expects previous) : endsFactor previous = false := by
  unfold endsFactor
  split
  · cases h
  · cases h
  · cases h
  · rfl

theorem ofLexemes_cons (previous : Option Token) (l : Lexeme) (ls : List Lexeme) :
    ofLexemes previous (l :: ls) =
      ofLexeme previous l ++ ofLexemes ((ofLexeme previous l).getLast?.or previous) ls := rfl

theorem ofLexemes_append_list (previous : Option Token) (ls ls' : List Lexeme) :
    ofLexemes previous (ls ++ ls') =
      ofLexemes previous ls ++ ofLexemes ((ofLexemes previous ls).getLast?.or previous) ls' := by
  induction ls generalizing previous with
  | nil => rfl
  | cons l ls ih =>
      rw [List.cons_append, ofLexemes_cons, ofLexemes_cons, ih, List.append_assoc, List.getLast?_append,
        Option.or_assoc]

theorem ofLexeme_ne_nil (previous : Option Token) (l : Lexeme) : ofLexeme previous l ≠ [] := by
  have hwith (t : Token) : withProduct previous t ≠ [] := by
    unfold withProduct
    split <;> exact List.cons_ne_nil _ _
  cases l with
  | number | name => exact hwith _
  | text | boolean | operator => exact List.cons_ne_nil _ _
  | mark m =>
      cases m with
      | openRound => exact hwith _
      | closeRound | openSquare | closeSquare | comma => exact List.cons_ne_nil _ _

/-- Wherever a value is expected, the tokens of a lexeme are those at the start of a text. -/
theorem ofLexeme_of_expects (h : Expects previous) (l : Lexeme) : ofLexeme previous l = ofLexeme none l := by
  have hwith (t : Token) : withProduct previous t = withProduct none t := by
    rw [withProduct, withProduct, endsFactor_of_expects h]
    rfl
  cases l with
  | number | name => exact hwith _
  | text | boolean => rfl
  | operator symbol =>
      rw [ofLexeme, ofLexeme, show expectsValue previous = true from h]
      rfl
  | mark m =>
      cases m with
      | openRound => exact hwith _
      | closeRound | openSquare | closeSquare | comma => rfl

theorem ofLexemes_of_expects (h : Expects previous) (ls : List Lexeme) :
    ofLexemes previous ls = ofLexemes none ls := by
  cases ls with
  | nil => rfl
  | cons l ls =>
      rw [ofLexemes_cons, ofLexemes_cons, ofLexeme_of_expects h,
        List.getLast?_eq_some_getLast (ofLexeme_ne_nil none l), Option.some_or, Option.some_or]

theorem ReadsBetween.append (h : ReadsBetween P cs ts Q) (h' : ReadsBetween P' cs' ts' Q')
    (hprevious : ∀ previous, P previous → P' (ts.getLast?.or previous))
    (htail : ∀ tail, Q' tail → Q (cs' ++ tail)) : ReadsBetween P (cs ++ cs') (ts ++ ts') Q' := by
  obtain ⟨ls, hread, htokens⟩ := h
  obtain ⟨ls', hread', htokens'⟩ := h'
  refine ⟨ls ++ ls', hread.append hread' htail, fun previous hP => ?_⟩
  rw [ofLexemes_append_list, htokens previous hP, htokens' _ (hprevious previous hP)]

theorem readsBetween_of_stands {c : Char} {l : Lexeme} (hc : Lexeme.isSkipped c = false)
    (h : ∀ tail, Q tail → Lexeme.Stands (some l) (c :: cs) tail)
    (htokens : ∀ previous, P previous → ofLexeme previous l = ts) : ReadsBetween P (c :: cs) ts Q := by
  refine ⟨[l], Lexeme.readsBefore_of_stands hc h, fun previous hP => ?_⟩
  rw [ofLexemes_cons, ofLexemes, List.append_nil, htokens previous hP]

/-- An opening bracket, where no factor has just ended. -/
theorem readsBetween_openRound (hP : ∀ previous, P previous → endsFactor previous = false) :
    ReadsBetween P ['('] [.mark .openRound] Q :=
  readsBetween_of_stands (l := .mark .openRound) rfl (fun _ _ => .mark) fun _ h => by
    rw [ofLexeme, withProduct, hP _ h]
    rfl

/-- Other brackets and commas. -/
theorem readsBetween_mark {m : Mark} (hm : m ≠ .openRound) : ReadsBetween P [m.char] [.mark m] Q := by
  refine readsBetween_of_stands (l := .mark m) ?_ (fun _ _ => .mark) fun _ _ => ?_
  · cases m <;> rfl
  · cases m with
    | openRound => exact absurd rfl hm
    | closeRound | openSquare | closeSquare | comma => rfl

theorem readsBetween_blank : ReadsBetween P [' '] [] Q :=
  ⟨[], fun tail _ _ htail => (Lexeme.scan_of_isSkipped tail rfl).trans htail, fun _ _ => rfl⟩

/-- A text that is read as some tokens, and still if a bracket follows, is so wherever a value is expected. -/
theorem readsBetween_of_ofSource {text : String} (h : ofSource text = .ok ts)
    (hbracket : ofSource (text ++ ")") = .ok (ts ++ [.mark .closeRound])) :
    ReadsBetween Expects text.toList ts Delimits := by
  obtain ⟨ls, hscan, hts⟩ := exists_of_bind_eq_ok h
  cases hts
  rcases Lexeme.readsBefore_or_comment hscan with hread | hcomment
  · exact ⟨ls, hread, fun previous hprevious => ofLexemes_of_expects hprevious ls⟩
  · -- the bracket would belong to a comment
    obtain ⟨ls', hscan', hts⟩ := exists_of_bind_eq_ok hbracket
    rw [String.toList_append] at hscan'
    cases hcomment.symm.trans hscan'
    simp [pure, Except.pure] at hts

end Token

end MathExpr
