import MathExpr.Proofs.CaseFolding

/-!
# The grammar of lexemes

What the readers recognise, as a grammar: `Lexeme.Stands l cs tail` says that the characters `cs`
are the lexeme `l` where the text goes on with `tail`. Lexemes are as long as they can be, so
that it matters what follows, but only its first characters do.

Whatever is recognised stands there (`Lexeme.stands_of_recognise`), and what stands there is
recognised, unless a colon follows, with which no lexeme starts (`Lexeme.recognise_of_stands`).
-/

namespace MathExpr.Lexeme

open Text (apply_toLower)

/-! ### Runs of characters -/

section

variable {p : Char → Bool} {cs tail : List Char}

/-- A run of characters ends before the first that is not of its class. -/
theorem takeWhile_append_of_forall (hcs : ∀ c ∈ cs, p c = true) (htail : ∀ c ∈ tail.head?, p c = false) :
    (cs ++ tail).takeWhile p = cs := by
  rw [List.takeWhile_append_of_pos hcs]
  cases tail with
  | nil => simp
  | cons c tail => simp [htail c rfl]

/-- A text is a run of a class of characters and what follows it. -/
theorem exists_run (p : Char → Bool) (cs : List Char) : ∃ run tail, cs = run ++ tail ∧
    cs.takeWhile p = run ∧ (∀ c ∈ run, p c = true) ∧ ∀ c ∈ tail.head?, p c = false := by
  refine ⟨cs.takeWhile p, cs.dropWhile p, List.takeWhile_append_dropWhile.symm, rfl,
    fun c hc => List.mem_takeWhile_imp hc, fun c hc => ?_⟩
  induction cs with
  | nil => cases hc
  | cons d cs ih =>
      rw [List.dropWhile_cons] at hc
      split at hc
      · exact ih hc
      · cases hc
        simp_all

end

/-! ### Numbers -/

theorem toNat_of_isDigit {c : Char} (h : c.isDigit = true) : c.toNat < 128 := by
  obtain ⟨-, hle⟩ := Bool.and_eq_true_iff.1 (show (decide _ && decide _) = true from h)
  have hle : c.val.toNat ≤ 57 := of_decide_eq_true hle
  change c.val.toNat < 128
  omega

/-- The characters of a number: digits, and a point with more digits if there are any behind it. -/
inductive IsNumber : Float → List Char → List Char → Prop
  | whole {ds tail : List Char} (hne : ds ≠ []) (hds : ∀ d ∈ ds, d.isDigit = true)
      (htail : ∀ c ∈ tail.head?, c.isDigit = false)
      (hpoint : ∀ rest, tail = '.' :: rest → ∀ c ∈ rest.head?, c.isDigit = false) :
      IsNumber (Real.ofDigits ds [] 0) ds tail
  | decimal {ds fs tail : List Char} (hne : ds ≠ []) (hds : ∀ d ∈ ds, d.isDigit = true)
      (hne' : fs ≠ []) (hfs : ∀ d ∈ fs, d.isDigit = true)
      (htail : ∀ c ∈ tail.head?, c.isDigit = false) :
      IsNumber (Real.ofDigits ds fs 0) (ds ++ '.' :: fs) tail

theorem IsNumber.exists_cons {x : Float} {cs tail : List Char} (h : IsNumber x cs tail) :
    ∃ c rest, cs = c :: rest ∧ c.isDigit = true := by
  cases h with
  | whole hne hds =>
      obtain ⟨c, rest, rfl⟩ := List.exists_cons_of_ne_nil hne
      exact ⟨c, rest, rfl, hds c List.mem_cons_self⟩
  | decimal hne hds =>
      obtain ⟨c, rest, rfl⟩ := List.exists_cons_of_ne_nil hne
      exact ⟨c, _, rfl, hds c List.mem_cons_self⟩

theorem number?_of_isNumber {x : Float} {cs tail : List Char} (h : IsNumber x cs tail) :
    number? (cs ++ tail) = some (x, cs.length) := by
  cases h with
  | whole hne hds htail hpoint =>
      have hdigits : numberDigits (cs ++ tail) = (cs, []) := by
        rw [numberDigits_eq]
        dsimp only
        rw [takeWhile_append_of_forall hds htail, List.drop_left]
        split
        · rename_i hdot
          have hrest := hpoint _ (eq_cons_of_take_one hdot)
          rw [← List.nil_append (tail.drop 1), takeWhile_append_of_forall (List.forall_mem_nil _) hrest]
        · rfl
      rw [number?, hdigits]
      cases cs with
      | nil => exact (hne rfl).elim
      | cons => rfl
  | @decimal ds fs _ hne hds hne' hfs htail =>
      have hdigits : numberDigits ((ds ++ '.' :: fs) ++ tail) = (ds, fs) := by
        rw [numberDigits_eq]
        dsimp only
        rw [List.append_assoc, takeWhile_append_of_forall hds (by simp), List.drop_left]
        simp only [List.cons_append, List.take_succ_cons, List.take_zero, if_true, List.drop_succ_cons,
          List.drop_zero]
        rw [takeWhile_append_of_forall hfs htail]
      rw [number?, hdigits]
      cases ds with
      | nil => exact (hne rfl).elim
      | cons d ds =>
          cases fs with
          | nil => exact (hne' rfl).elim
          | cons =>
              simp
              omega

theorem exists_isNumber {c : Char} (hc : c.isDigit = true) (rest : List Char) :
    ∃ x cs tail, c :: rest = cs ++ tail ∧ IsNumber x cs tail := by
  obtain ⟨ds, tail, heq, -, hds, htail⟩ := exists_run Char.isDigit (c :: rest)
  have hne : ds ≠ [] := by
    rintro rfl
    cases heq
    exact Bool.false_ne_true ((htail c rfl).symm.trans hc)
  by_cases hpoint : ∀ rest, tail = '.' :: rest → ∀ c ∈ rest.head?, c.isDigit = false
  · exact ⟨_, ds, tail, heq, .whole hne hds htail hpoint⟩
  · -- a point with a digit behind it
    push Not at hpoint
    obtain ⟨rest', rfl, d, hd, hdigit⟩ := hpoint
    obtain ⟨fs, tail', rfl, -, hfs, htail'⟩ := exists_run Char.isDigit rest'
    have hne' : fs ≠ [] := by
      rintro rfl
      exact hdigit (htail' d hd)
    exact ⟨_, ds ++ '.' :: fs, tail', by simpa using heq, .decimal hne hds hne' hfs htail'⟩

theorem number?_cons {c : Char} (hc : c.isDigit = false) (rest : List Char) :
    number? (c :: rest) = none := by
  simp [number?, numberDigits_eq, hc]

theorem isNumber_of_number? {x : Float} {cs : List Char} {n : Nat} (h : number? cs = some (x, n)) :
    ∃ chunk tail, cs = chunk ++ tail ∧ n = chunk.length ∧ IsNumber x chunk tail := by
  cases cs with
  | nil => cases h
  | cons c rest =>
      cases hc : c.isDigit with
      | false =>
          rw [number?_cons hc] at h
          cases h
      | true =>
          obtain ⟨y, chunk, tail, heq, hnumber⟩ := exists_isNumber hc rest
          rw [heq, number?_of_isNumber hnumber] at h
          cases h
          exact ⟨chunk, tail, heq, rfl, hnumber⟩

/-! ### Texts -/

/-- The closing quote is looked for no further than where it stands. -/
theorem quotedLength_append {quote : Char} {cs : List Char} {n : Nat} (hquote : quote ≠ '\\')
    (h : quotedLength quote cs = some n) :
    ∃ inside tail, cs = inside ++ quote :: tail ∧ inside.length = n ∧
      ∀ tail', quotedLength quote (inside ++ quote :: tail') = some n := by
  fun_induction quotedLength quote cs generalizing n with
  | case1 => cases h
  | case2 => cases h
  | case3 c rest hc ih =>
      obtain ⟨m, hm, rfl⟩ := Option.map_eq_some_iff.1 h
      obtain ⟨inside, tail, rfl, rfl, hinside⟩ := ih hm
      refine ⟨'\\' :: c :: inside, tail, rfl, rfl, fun tail' => ?_⟩
      rw [List.cons_append, List.cons_append, quotedLength, if_neg hc, hinside]
      rfl
  | case4 rest hescape =>
      cases h
      refine ⟨[], rest, rfl, rfl, fun tail' => ?_⟩
      rw [List.nil_append, quotedLength_cons fun d rest' hc _ => hquote hc, if_pos rfl]
  | case5 => cases h
  | case6 c rest hescape hclosing hslash ih =>
      obtain ⟨m, hm, rfl⟩ := Option.map_eq_some_iff.1 h
      obtain ⟨inside, tail, rfl, rfl, hinside⟩ := ih hm
      refine ⟨c :: inside, tail, rfl, rfl, fun tail' => ?_⟩
      rw [List.cons_append, quotedLength_cons fun d rest' hc _ => hslash hc, if_neg hclosing,
        if_neg hslash, hinside]
      rfl

/-- The characters of a quoted text, with its quotes. -/
inductive IsText : String → List Char → Prop
  | quoted {quote : Char} {inside : List Char} (hquote : quote = '\x22' ∨ quote = '\x27')
      (hinside : ∀ tail, quotedLength quote (inside ++ quote :: tail) = some inside.length) :
      IsText (String.ofList (unescapeChars inside)) (quote :: inside ++ [quote])

theorem text?_of_isText {s : String} {cs : List Char} (h : IsText s cs) (tail : List Char) :
    text? (cs ++ tail) = some (s, cs.length) := by
  obtain ⟨hquote, hinside⟩ := h
  rename_i quote inside
  have happend : (quote :: inside ++ [quote]) ++ tail = quote :: (inside ++ quote :: tail) := by simp
  rw [happend, text?, if_pos hquote, hinside, Option.map_some, List.take_left]
  simp

theorem isText_of_text? {s : String} {cs : List Char} {n : Nat} (h : text? cs = some (s, n)) :
    ∃ chunk tail, cs = chunk ++ tail ∧ n = chunk.length ∧ IsText s chunk := by
  cases cs with
  | nil => cases h
  | cons quote rest =>
      rw [text?] at h
      split at h
      · rename_i hquote
        obtain ⟨m, hm, heq⟩ := Option.map_eq_some_iff.1 h
        have hescape : quote ≠ '\\' := by rcases hquote with rfl | rfl <;> decide
        obtain ⟨inside, tail, rfl, rfl, hinside⟩ := quotedLength_append hescape hm
        cases heq
        refine ⟨quote :: inside ++ [quote], tail, by simp, by simp, ?_⟩
        rw [List.take_left]
        exact .quoted hquote hinside
      · cases h

theorem text?_cons {c : Char} (hc : ¬(c = '\x22' ∨ c = '\x27')) (rest : List Char) :
    text? (c :: rest) = none := if_neg hc

/-! ### Words -/

/-- The characters are the letters of a word, in any form. -/
abbrev Spells (word cs : List Char) : Prop :=
  List.Forall₂ (fun letter c => isForm letter c = true) word cs

/-- No word goes on with a text. -/
abbrev EndsWord (tail : List Char) : Prop := ∀ c ∈ tail.head?, isWordChar c = false

theorem startsWithWord_iff {cs word : List Char} :
    startsWithWord cs word = true ↔
      ∃ chunk tail, cs = chunk ++ tail ∧ Spells word chunk ∧ EndsWord tail := by
  have hforms {word cs : List Char} : word.length ≤ cs.length →
      ((List.zipWith isForm word cs).all id = true ↔ Spells word (cs.take word.length)) := by
    intro hle
    induction word generalizing cs with
    | nil => simp
    | cons letter word ih =>
        cases cs with
        | nil => cases hle
        | cons c cs => simp [ih (Nat.le_of_succ_le_succ hle)]
  simp only [startsWithWord, Bool.and_eq_true, decide_eq_true_eq]
  constructor
  · rintro ⟨⟨hle, hspells⟩, hend⟩
    refine ⟨_, _, (List.take_append_drop word.length cs).symm, (hforms hle).1 hspells, fun c hc => ?_⟩
    simpa [Option.mem_def.1 hc] using hend
  · rintro ⟨chunk, tail, rfl, hspells, hend⟩
    have hlength := hspells.length_eq
    refine ⟨⟨by simp [hlength], (hforms (by simp [hlength])).2 (by simpa [hlength] using hspells)⟩, ?_⟩
    rw [hlength, List.drop_left]
    cases tail with
    | nil => rfl
    | cons c tail => simpa using hend c rfl

/-- All words that are no names. -/
def reservedWords : List String := ["true", "false"] ++ operatorWords

theorem toNat_of_mem_reservedWords {word : String} (hword : word ∈ reservedWords) :
    ∀ letter ∈ word.toList, letter.isAlpha = true ∧ letter.toNat < 128 := by
  -- As a test of the letters: a quantifier over characters is decided by going through all there are.
  have hall : (reservedWords.all fun word => word.toList.all fun letter =>
      decide (letter.isAlpha = true ∧ letter.toNat < 128)) = true := by decide +kernel
  simp only [List.all_eq_true, decide_eq_true_eq] at hall
  exact hall word hword

/-- A character is a form of one letter only. -/
theorem eq_of_isForm {a b c : Char} (ha : a.toNat < 128) (hb : b.toNat < 128)
    (hac : isForm a c = true) (hbc : isForm b c = true) : a = b := by
  have hlarge (h : 128 ≤ c.toNat) {d : Char} (hd : d.toNat < 128) : c.toLower ≠ d := by
    rw [Text.toLower_of_le h]
    rintro rfl
    omega
  simp only [isForm, Bool.or_eq_true, Bool.and_eq_true, beq_iff_eq] at hac hbc
  rcases hac with (hac | ⟨rfl, hac⟩) | ⟨rfl, hac⟩ <;> rcases hbc with (hbc | ⟨rfl, hbc⟩) | ⟨rfl, hbc⟩
  all_goals grind

/-- A character of another class than letters is a form of none. -/
theorem isAlpha_of_isForm {letter c : Char} (hletter : letter.isAlpha = true)
    (h : isForm letter c = true) : c.isAlpha = true ∨ 128 ≤ c.toNat := by
  simp only [isForm, Bool.or_eq_true, Bool.and_eq_true, beq_iff_eq] at h
  rcases h with (h | ⟨-, h⟩) | ⟨-, h⟩
  · left
    rw [← apply_toLower (p := Char.isAlpha) (by decide), h, hletter]
  · right
    omega
  · right
    omega

/-- Characters that spell the beginning of a text spell it in one way. -/
theorem isPrefix_of_spells {word word' cs cs' : List Char} (hcs : cs <+: cs')
    (hword : ∀ letter ∈ word, letter.toNat < 128) (hword' : ∀ letter ∈ word', letter.toNat < 128)
    (h : Spells word cs) (h' : Spells word' cs') : word <+: word' := by
  induction h generalizing word' cs' with
  | nil => exact List.nil_prefix
  | cons hletter _ ih =>
      obtain ⟨tail, rfl⟩ := hcs
      cases h' with
      | cons hletter' h' =>
          rw [eq_of_isForm (hword _ List.mem_cons_self) (hword' _ List.mem_cons_self) hletter hletter']
          exact List.prefix_cons_inj _ |>.2 (ih ⟨tail, rfl⟩
            (fun l hl => hword l (List.mem_cons_of_mem _ hl))
            (fun l hl => hword' l (List.mem_cons_of_mem _ hl)) h')

/-- No reserved word is the beginning of another. -/
theorem eq_of_spells {word word' : String} (hword : word ∈ reservedWords)
    (hword' : word' ∈ reservedWords) {cs cs' : List Char} (hcs : cs <+: cs')
    (h : Spells word.toList cs) (h' : Spells word'.toList cs') : word = word' := by
  have hall : ∀ word ∈ reservedWords, ∀ word' ∈ reservedWords,
      word.toList <+: word'.toList → word = word' := by decide +kernel
  exact hall word hword word' hword' (isPrefix_of_spells hcs
    (fun l hl => (toNat_of_mem_reservedWords hword l hl).2)
    (fun l hl => (toNat_of_mem_reservedWords hword' l hl).2) h h')

theorem eq_of_startsWithWord {word word' : String} (hword : word ∈ reservedWords)
    (hword' : word' ∈ reservedWords) {cs : List Char} (h : startsWithWord cs word.toList = true)
    (h' : startsWithWord cs word'.toList = true) : word = word' := by
  obtain ⟨chunk, tail, rfl, hspells, -⟩ := startsWithWord_iff.1 h
  obtain ⟨chunk', tail', heq, hspells', -⟩ := startsWithWord_iff.1 h'
  have hchunk' : chunk' <+: chunk ++ tail := heq ▸ List.prefix_append chunk' tail'
  rcases List.prefix_or_prefix_of_prefix (List.prefix_append chunk tail) hchunk' with hbegins | hbegins
  · exact eq_of_spells hword hword' hbegins hspells hspells'
  · exact (eq_of_spells hword' hword hbegins hspells' hspells).symm

/-- The word that a text starts with is found. -/
theorem wordLength_of_startsWithWord {words : List String} (hwords : words ⊆ reservedWords)
    {word : String} (hword : word ∈ words) {cs : List Char} (h : startsWithWord cs word.toList = true) :
    wordLength words cs = some word.length := by
  unfold wordLength
  cases hfind : words.find? fun word => startsWithWord cs word.toList with
  | none => exact (List.find?_eq_none.1 hfind word hword h).elim
  | some word' =>
      have hstarts := List.find?_some (p := fun word : String => startsWithWord cs word.toList) hfind
      rw [eq_of_startsWithWord (hwords (List.mem_of_find?_eq_some hfind)) (hwords hword) hstarts h]
      rfl

/-- A text that starts with another word starts with none of some words. -/
theorem wordLength_eq_none_iff {words : List String} {cs : List Char} :
    wordLength words cs = none ↔ ∀ word ∈ words, startsWithWord cs word.toList = false := by
  simp [wordLength]

theorem exists_of_wordLength {words : List String} {cs : List Char} {n : Nat}
    (h : wordLength words cs = some n) : ∃ word ∈ words, ∃ chunk tail, cs = chunk ++ tail ∧
      n = chunk.length ∧ Spells word.toList chunk ∧ EndsWord tail := by
  obtain ⟨word, hfind, rfl⟩ := Option.map_eq_some_iff.1 h
  have hstarts := List.find?_some (p := fun word : String => startsWithWord cs word.toList) hfind
  obtain ⟨chunk, tail, rfl, hspells, hend⟩ := startsWithWord_iff.1 hstarts
  refine ⟨word, List.mem_of_find?_eq_some hfind, chunk, tail, rfl, ?_, hspells, hend⟩
  rw [← hspells.length_eq, String.length_toList]

/-- A reserved word starts with a letter, in some form. -/
theorem startsWithWord_cons {c : Char} (hc : c.isAlpha = false) (hc' : c.toNat < 128)
    (rest : List Char) {word : String} (hword : word ∈ reservedWords) :
    startsWithWord (c :: rest) word.toList = false := by
  rw [Bool.eq_false_iff]
  intro h
  obtain ⟨chunk, tail, heq, hspells, -⟩ := startsWithWord_iff.1 h
  have hne : ∀ word ∈ reservedWords, word.toList ≠ [] := by decide +kernel
  cases hletters : word.toList with
  | nil => exact hne word hword hletters
  | cons letter letters =>
      have hletter := (toNat_of_mem_reservedWords hword letter (hletters ▸ List.mem_cons_self)).1
      rw [hletters] at hspells
      cases hspells with
      | cons hform _ =>
          cases heq
          rcases isAlpha_of_isForm hletter hform with h | h
          · exact Bool.false_ne_true (hc.symm.trans h)
          · omega

theorem wordLength_cons {c : Char} (hc : c.isAlpha = false) (hc' : c.toNat < 128)
    (rest : List Char) {words : List String} (hwords : words ⊆ reservedWords) :
    wordLength words (c :: rest) = none :=
  wordLength_eq_none_iff.2 fun _ hword => startsWithWord_cons hc hc' rest (hwords hword)

/-! ### Names -/

/-- The characters that a name without hints starts with. -/
def startsName (c : Char) : Bool := isAsciiLetter c || c == '_' || c == '$' || c == '?'

/-- The characters of a name without hints. -/
inductive IsPlainName : List Char → List Char → Prop
  | anyMore {tail : List Char} : IsPlainName ['?', '?'] tail
  | anything {tail : List Char} (htail : tail.head? ≠ some '?') : IsPlainName ['?'] tail
  | word {dollar body primes tail : List Char} {c : Char} (hdollar : dollar = [] ∨ dollar = ['$'])
      (hc : (isAsciiLetter c || c == '_') = true) (hbody : ∀ d ∈ body, isNameChar d = true)
      (hprimes : ∀ d ∈ primes, (d == '\x27') = true) (htail : ∀ d ∈ tail.head?, (d == '\x27') = false)
      (hend : primes = [] → ∀ d ∈ tail.head?, isNameChar d = false) :
      IsPlainName (dollar ++ c :: body ++ primes) tail

theorem plainNameLength_of_isPlainName {cs tail : List Char} (h : IsPlainName cs tail) :
    plainNameLength (cs ++ tail) = some cs.length := by
  cases h with
  | anyMore => rfl
  | anything htail =>
      have htwo : ('?' :: tail).take 2 ≠ ['?', '?'] := by
        cases tail with
        | nil => simp
        | cons c tail => simpa using htail
      rw [List.singleton_append, plainNameLength_eq, if_neg htwo]
      rfl
  | @word dollar body primes _ c hdollar hc hbody hprimes htail hend =>
      have hrun : (body ++ primes ++ tail).takeWhile isNameChar = body := by
        rw [List.append_assoc]
        refine takeWhile_append_of_forall hbody fun d hd => ?_
        cases primes with
        | nil => exact hend rfl d hd
        | cons e primes =>
            cases hd
            rw [eq_of_beq (hprimes d List.mem_cons_self)]
            decide
      have hrest : c :: (body ++ primes ++ tail) ≠ [] := by simp
      have hquestion : c ≠ '?' := by
        rintro rfl
        exact absurd hc (by decide)
      have hdollar' : c ≠ '$' := by
        rintro rfl
        exact absurd hc (by decide)
      rw [plainNameLength_eq]
      rcases hdollar with rfl | rfl
      · simp only [List.nil_append, List.cons_append]
        rw [if_neg (by simp [hquestion]), if_neg (by simp [hquestion])]
        simp only [List.take_succ_cons, List.take_zero, List.cons.injEq, hdollar', false_and, if_false,
          List.drop_zero, hc, if_true]
        rw [hrun, List.append_assoc, List.drop_left, takeWhile_append_of_forall hprimes htail]
        simp
        omega
      · simp only [List.cons_append, List.nil_append]
        rw [if_neg (by simp), if_neg (by simp)]
        simp only [List.take_succ_cons, List.take_zero, if_true, List.drop_succ_cons, List.drop_zero, hc]
        rw [hrun, List.append_assoc, List.drop_left, takeWhile_append_of_forall hprimes htail]
        simp
        omega

theorem exists_isPlainName {c : Char} {rest : List Char} {n : Nat}
    (h : plainNameLength (c :: rest) = some n) :
    ∃ cs tail, c :: rest = cs ++ tail ∧ IsPlainName cs tail := by
  have hword {dollar : List Char} (hdollar : dollar = [] ∨ dollar = ['$']) {c : Char}
      (hc : (isAsciiLetter c || c == '_') = true) (rest : List Char) :
      ∃ cs tail, dollar ++ c :: rest = cs ++ tail ∧ IsPlainName cs tail := by
    obtain ⟨body, tail, rfl, -, hbody, hend⟩ := exists_run isNameChar rest
    obtain ⟨primes, tail, rfl, -, hprimes, htail⟩ := exists_run (· == '\x27') tail
    refine ⟨dollar ++ c :: body ++ primes, tail, by simp, .word hdollar hc hbody hprimes htail ?_⟩
    rintro rfl
    exact hend
  rw [plainNameLength_eq] at h
  by_cases hquestion : c = '?'
  · subst hquestion
    by_cases htwo : rest.head? = some '?'
    · obtain ⟨tail, rfl⟩ := List.head?_eq_some_iff.1 htwo
      exact ⟨['?', '?'], tail, rfl, .anyMore⟩
    · exact ⟨['?'], rest, rfl, .anything htwo⟩
  · rw [if_neg (by cases rest <;> simp [hquestion]), if_neg (by simp [hquestion])] at h
    by_cases hdollar : c = '$'
    · subst hdollar
      cases rest with
      | nil => cases h
      | cons d rest =>
          by_cases hd : (isAsciiLetter d || d == '_') = true
          · exact hword (.inr rfl) hd rest
          · simp [hd] at h
    · by_cases hc : (isAsciiLetter c || c == '_') = true
      · exact hword (.inl rfl) hc rest
      · simp [hdollar, hc] at h

theorem plainNameLength_cons {c : Char} (hc : startsName c = false) (rest : List Char) :
    plainNameLength (c :: rest) = none := by
  simp only [startsName, Bool.or_eq_false_iff, beq_eq_false_iff_ne] at hc
  rw [plainNameLength_eq, if_neg (by cases rest <;> simp [hc]), if_neg (by simp [hc])]
  simp [hc]

/-- The characters of a name with its hints. -/
inductive IsName : List String → String → List Char → List Char → Prop
  | plain {cs tail : List Char} (hplain : IsPlainName cs tail) : IsName [] (String.ofList cs) cs tail
  | hint {letters cs tail : List Char} {hints : List String} {s : String} (hne : letters ≠ [])
      (hletters : ∀ c ∈ letters, isAsciiLetter c = true) (hname : IsName hints s cs tail) :
      IsName (String.ofList letters :: hints) s (letters ++ ':' :: cs) tail

theorem IsPlainName.not_mem {cs tail : List Char} (h : IsPlainName cs tail) : ':' ∉ cs := by
  cases h with
  | anyMore | anything => decide
  | word hdollar hc hbody hprimes _ _ =>
      simp only [List.mem_append, List.mem_cons, not_or]
      refine ⟨⟨?_, ?_, ?_⟩, ?_⟩
      · rcases hdollar with rfl | rfl <;> decide
      · rintro rfl
        exact absurd hc (by decide)
      · exact fun h => absurd (hbody _ h) (by decide)
      · exact fun h => absurd (hprimes _ h) (by decide)

/-- A name goes on as long as it can. -/
theorem IsPlainName.isNameChar_tail {cs tail : List Char} (h : IsPlainName cs tail)
    (hcs : ∀ c ∈ cs, c ≠ '?' ∧ c ≠ '\x27') : ∀ d ∈ tail.head?, isNameChar d = false := by
  cases h with
  | anyMore | anything => exact ((hcs '?' List.mem_cons_self).1 rfl).elim
  | @word dollar body primes _ c _ _ _ hprimes _ hend =>
      refine hend (List.eq_nil_iff_forall_not_mem.2 fun d hd => ?_)
      exact (hcs d (List.mem_append_right _ hd)).2 (eq_of_beq (hprimes d hd))

/-- The letters that a name starts with are not followed by a colon. -/
theorem IsPlainName.take_drop_letters {cs tail : List Char} (h : IsPlainName cs tail)
    (hcolon : tail.head? ≠ some ':') :
    ((cs ++ tail).drop ((cs ++ tail).takeWhile isAsciiLetter).length).take 1 ≠ [':'] := by
  obtain ⟨letters, rest, heq, hrun, hletters, -⟩ := exists_run isAsciiLetter (cs ++ tail)
  rw [hrun, heq, List.drop_left]
  intro hrest
  rw [eq_cons_of_take_one hrest] at heq
  -- The colon stands behind the name, so that all of the name is letters.
  rcases List.append_eq_append_iff.1 heq with ⟨between, rfl, htail⟩ | ⟨between, rfl, hbetween⟩
  · cases between with
    | nil => exact hcolon (by rw [htail]; rfl)
    | cons d between =>
        have hd := hletters d (List.mem_append_right cs List.mem_cons_self)
        have hnot := h.isNameChar_tail (fun c hc => ?_) d (by rw [htail]; rfl)
        · simp only [isNameChar, Char.isAlphanum, Bool.or_eq_false_iff] at hnot
          exact Bool.false_ne_true (hnot.1.1.symm.trans hd)
        · have hc := hletters c (List.mem_append_left _ hc)
          constructor <;>
            · rintro rfl
              exact absurd hc (by decide)
  · cases between with
    | nil => exact hcolon (by rw [← List.nil_append tail, ← hbetween]; rfl)
    | cons d between =>
        obtain ⟨rfl, -⟩ := List.cons.inj hbetween
        exact h.not_mem (List.mem_append_right _ List.mem_cons_self)

theorem name?_of_isName {hints : List String} {s : String} {cs tail : List Char}
    (h : IsName hints s cs tail) (hcolon : tail.head? ≠ some ':') :
    name? (cs ++ tail) = some (hints, s, cs.length) := by
  induction h with
  | plain hplain =>
      rw [name?_eq]
      dsimp only
      rw [if_neg (hplain.take_drop_letters hcolon), plainNameLength_of_isPlainName hplain,
        Option.map_some, List.take_left]
  | @hint letters cs tail hints s hne hletters _ ih =>
      rw [name?_eq]
      dsimp only
      rw [List.append_assoc, takeWhile_append_of_forall hletters (by simp; decide), List.drop_left]
      simp only [List.cons_append, List.take_succ_cons, List.take_zero, if_true, List.drop_succ_cons,
        List.drop_zero]
      rw [ih hcolon]
      simp [hne]
      omega

theorem isName_of_name? {hints : List String} {s : String} {cs : List Char} {n : Nat}
    (h : name? cs = some (hints, s, n)) :
    ∃ chunk tail, cs = chunk ++ tail ∧ n = chunk.length ∧ IsName hints s chunk tail := by
  induction hlength : cs.length using Nat.strong_induction_on generalizing cs hints n with
  | _ k ih =>
  have hplain (h : (plainNameLength cs).map (fun n => ([], String.ofList (cs.take n), n)) =
      some (hints, s, n)) :
      ∃ chunk tail, cs = chunk ++ tail ∧ n = chunk.length ∧ IsName hints s chunk tail := by
    obtain ⟨m, hm, heq⟩ := Option.map_eq_some_iff.1 h
    cases heq
    cases cs with
    | nil => cases hm
    | cons c rest =>
        obtain ⟨chunk, tail, heq, hname⟩ := exists_isPlainName hm
        rw [heq, plainNameLength_of_isPlainName hname] at hm
        cases hm
        refine ⟨chunk, tail, heq, rfl, ?_⟩
        rw [heq, List.take_left]
        exact .plain hname
  rw [name?_eq] at h
  dsimp only at h
  obtain ⟨letters, rest, rfl, hrun, hletters, -⟩ := exists_run isAsciiLetter cs
  rw [hrun, List.drop_left] at h
  split at h
  · rename_i hcolon
    split at h
    · exact hplain h
    · rename_i hne
      have hrest := eq_cons_of_take_one hcolon
      split at h
      · rename_i hints' s' m hname
        cases h
        have hlt : (rest.drop 1).length < k := by
          have := congrArg List.length hrest
          rw [List.length_cons] at this
          rw [← hlength, List.length_append]
          omega
        obtain ⟨chunk, tail, heq, rfl, hchunk⟩ := ih _ hlt hname rfl
        refine ⟨letters ++ ':' :: chunk, tail, ?_, ?_, .hint (by simpa using hne) hletters hchunk⟩
        · rw [hrest, heq]
          simp
        · simp
          omega
      · exact hplain h
  · exact hplain h

theorem name?_cons {c : Char} (hc : startsName c = false) (rest : List Char) :
    name? (c :: rest) = none := by
  have hletter : isAsciiLetter c = false := by
    simp only [startsName, Bool.or_eq_false_iff] at hc
    exact hc.1.1.1
  rw [name?_eq, plainNameLength_cons hc]
  simp [hletter]

/-! ### Signs -/

/-- The longest sign that a text starts with. -/
def longestSign? (cs : List Char) : Option String :=
  operatorSigns.find? fun s => s.toList.isPrefixOf cs

theorem longestSign?_cons {p : Char → Bool}
    (hp : (operatorSigns.all fun s => s.toList.head?.any fun c => !p c) = true) {c : Char}
    (hc : p c = true) (rest : List Char) : longestSign? (c :: rest) = none := by
  refine List.find?_eq_none.2 fun s hs hbegins => ?_
  have hhead := List.all_eq_true.1 hp s hs
  cases hchars : s.toList with
  | nil => simp [hchars] at hhead
  | cons d ds =>
      rw [hchars] at hbegins hhead
      simp only [List.isPrefixOf_cons_cons, Bool.and_eq_true, beq_iff_eq] at hbegins
      simp [hbegins.1, hc] at hhead

theorem exists_cons_of_longestSign? {s : String} {cs : List Char} (h : longestSign? cs = some s) :
    ∃ c rest, s.toList = c :: rest := by
  have hne : ∀ s ∈ operatorSigns, s.toList ≠ [] := by decide +kernel
  exact List.exists_cons_of_ne_nil (hne s (List.mem_of_find?_eq_some h))

theorem operator?_of_word {cs : List Char} {n : Nat} (h : wordLength operatorWords cs = some n) :
    operator? cs = some (Text.lower (String.ofList (cs.take n)), n) := by
  rw [operator?, h]

theorem operator?_of_sign {cs : List Char} (h : wordLength operatorWords cs = none) :
    operator? cs = (longestSign? cs).map fun s => (s, s.length) := by
  rw [operator?, h]
  rfl

/-! ### Lexemes -/

theorem commentLength_cons {c : Char} (hc : c ≠ '/') (rest : List Char) :
    commentLength (c :: rest) = none := by
  rw [commentLength_eq, if_neg (by cases rest <;> simp [hc])]

theorem commentLength_eq_none_iff {cs : List Char} :
    commentLength cs = none ↔ ['/', '/'].isPrefixOf cs = false := by
  rw [commentLength_eq, Bool.eq_false_iff, Ne, List.isPrefixOf_iff_prefix, List.prefix_iff_eq_take]
  simp [eq_comm]

/-- A text starts with none of some words. -/
abbrev AvoidsWords (cs : List Char) : Prop :=
  ∀ word ∈ reservedWords, startsWithWord cs word.toList = false

/-- Characters are a lexeme, or a comment, where a text goes on with a tail. -/
inductive Stands : Option Lexeme → List Char → List Char → Prop
  | comment {cs tail : List Char} (hcs : ∀ c ∈ cs, (c != '\n') = true)
      (htail : ∀ c ∈ tail.head?, (c != '\n') = false) : Stands none ('/' :: '/' :: cs) tail
  | number {x : Float} {cs tail : List Char} (hnumber : IsNumber x cs tail) :
      Stands (some (number x)) cs tail
  | text {s : String} {cs tail : List Char} (htext : IsText s cs) : Stands (some (text s)) cs tail
  | boolean {word : String} {cs tail : List Char} (hword : word ∈ ["true", "false"])
      (hspells : Spells word.toList cs) (hend : EndsWord tail) :
      Stands (some (boolean (Text.lower (String.ofList cs) == "true"))) cs tail
  | word {word : String} {cs tail : List Char} (hword : word ∈ operatorWords)
      (hspells : Spells word.toList cs) (hend : EndsWord tail) :
      Stands (some (operator (Text.lower (String.ofList cs)))) cs tail
  | sign {s : String} {tail : List Char} (hsign : longestSign? (s.toList ++ tail) = some s)
      (hcomment : commentLength (s.toList ++ tail) = none) :
      Stands (some (operator s)) s.toList tail
  | name {hints : List String} {s : String} {cs tail : List Char} (hname : IsName hints s cs tail)
      (hwords : AvoidsWords (cs ++ tail)) :
      Stands (some (name hints s (tail.head? == some '('))) cs tail
  | mark {m : Mark} {tail : List Char} : Stands (some (mark m)) [m.char] tail

/-- The readers are tried one after another. -/
theorem recognise_eq (cs : List Char) :
    recognise cs =
      ((commentLength cs).map fun n => (none, n)).or
      (((number? cs).map fun r => (some (number r.1), r.2)).or
      (((text? cs).map fun r => (some (text r.1), r.2)).or
      (((boolean? cs).map fun r => (some (boolean r.1), r.2)).or
      (((operator? cs).map fun r => (some (operator r.1), r.2)).or
      (((name? cs).map fun r => (some (name r.1 r.2.1 ((cs.drop r.2.2).head? == some '(')), r.2.2)).or
      ((cs.head?.bind mark?).map fun m => (some (mark m), 1))))))) := by
  unfold recognise
  cases commentLength cs with
  | some n => rfl
  | none =>
  cases number? cs with
  | some r => rfl
  | none =>
  cases text? cs with
  | some r => rfl
  | none =>
  cases boolean? cs with
  | some r => rfl
  | none =>
  cases operator? cs with
  | some r => rfl
  | none =>
  cases name? cs with
  | some r => rfl
  | none => cases cs.head?.bind mark? <;> rfl

/-- What a word or a name may start with: nothing that a comment, a number or a text starts with. -/
def startsWord (c : Char) : Bool :=
  !(c == '/' || c.isDigit || c == '\x22' || c == '\x27')

theorem recognise_of_startsWord {c : Char} (hc : startsWord c = true) (rest : List Char) :
    recognise (c :: rest) =
      ((boolean? (c :: rest)).map fun r => (some (boolean r.1), r.2)).or
      (((operator? (c :: rest)).map fun r => (some (operator r.1), r.2)).or
      (((name? (c :: rest)).map fun r =>
        (some (name r.1 r.2.1 (((c :: rest).drop r.2.2).head? == some '(')), r.2.2)).or
      ((mark? c).map fun m => (some (mark m), 1)))) := by
  simp only [startsWord, Bool.not_eq_true', Bool.or_eq_false_iff, beq_eq_false_iff_ne] at hc
  obtain ⟨⟨⟨hslash, hdigit⟩, hdouble⟩, hsingle⟩ := hc
  rw [recognise_eq, commentLength_cons hslash, number?_cons hdigit, text?_cons (by simp [hdouble, hsingle])]
  rfl

theorem startsWord_of_letter {c : Char} (h : c.isAlpha = true ∨ 128 ≤ c.toNat) :
    startsWord c = true := by
  rw [startsWord, Bool.not_eq_true', Bool.or_eq_false_iff, Bool.or_eq_false_iff, Bool.or_eq_false_iff,
    beq_eq_false_iff_ne, beq_eq_false_iff_ne, beq_eq_false_iff_ne]
  have hne {d : Char} (hd : d.isAlpha = false) (hd' : d.toNat < 128) : c ≠ d := by
    rintro rfl
    rcases h with h | h
    · exact Bool.false_ne_true (hd.symm.trans h)
    · omega
  refine ⟨⟨⟨hne rfl (by decide), ?_⟩, hne rfl (by decide)⟩, hne rfl (by decide)⟩
  rcases h with h | h
  · exact isDigit_of_isAlpha h
  · rw [Bool.eq_false_iff]
    intro hdigit
    have := toNat_of_isDigit hdigit
    omega

theorem startsWord_of_startsName {c : Char} (h : startsName c = true) : startsWord c = true := by
  simp only [startsName, Bool.or_eq_true, beq_iff_eq] at h
  rcases h with ((h | rfl) | rfl) | rfl
  · exact startsWord_of_letter (.inl h)
  all_goals rfl

/-- Words start with letters, in any form. -/
theorem Spells.exists_cons {word : String} (hword : word ∈ reservedWords) {cs : List Char}
    (h : Spells word.toList cs) : ∃ c rest, cs = c :: rest ∧ startsWord c = true := by
  have hne : ∀ word ∈ reservedWords, word.toList ≠ [] := by decide +kernel
  cases hletters : word.toList with
  | nil => exact (hne word hword hletters).elim
  | cons letter letters =>
      have hletter := (toNat_of_mem_reservedWords hword letter (hletters ▸ List.mem_cons_self)).1
      rw [hletters] at h
      cases h with
      | @cons _ c _ rest hform _ =>
          exact ⟨c, rest, rfl, startsWord_of_letter (isAlpha_of_isForm hletter hform)⟩

theorem IsPlainName.exists_cons {cs tail : List Char} (h : IsPlainName cs tail) :
    ∃ c rest, cs = c :: rest ∧ startsName c = true := by
  cases h with
  | anyMore => exact ⟨_, _, rfl, rfl⟩
  | anything => exact ⟨_, _, rfl, rfl⟩
  | @word dollar body primes _ c hdollar hc =>
      rcases hdollar with rfl | rfl
      · exact ⟨c, _, rfl, by simp only [startsName, hc, Bool.true_or]⟩
      · exact ⟨_, _, rfl, rfl⟩

theorem IsName.exists_cons {hints : List String} {s : String} {cs tail : List Char}
    (h : IsName hints s cs tail) : ∃ c rest, cs = c :: rest ∧ startsName c = true := by
  cases h with
  | plain hplain => exact hplain.exists_cons
  | @hint letters cs _ hints _ hne hletters _ =>
      obtain ⟨c, letters, rfl⟩ := List.exists_cons_of_ne_nil hne
      exact ⟨c, _, rfl, by simp [startsName, hletters c List.mem_cons_self]⟩

/-- A lexeme has characters. -/
theorem Stands.exists_cons {l : Option Lexeme} {cs tail : List Char} (h : Stands l cs tail) :
    ∃ c rest, cs = c :: rest := by
  cases h with
  | comment | mark => exact ⟨_, _, rfl⟩
  | text htext => cases htext with | quoted => exact ⟨_, _, rfl⟩
  | number hnumber =>
      obtain ⟨c, rest, hcs, -⟩ := hnumber.exists_cons
      exact ⟨c, rest, hcs⟩
  | boolean hword hspells =>
      obtain ⟨c, rest, hcs, -⟩ := hspells.exists_cons (List.subset_append_left _ _ hword)
      exact ⟨c, rest, hcs⟩
  | word hword hspells =>
      obtain ⟨c, rest, hcs, -⟩ := hspells.exists_cons (List.subset_append_right _ _ hword)
      exact ⟨c, rest, hcs⟩
  | sign hsign => exact exists_cons_of_longestSign? hsign
  | name hname =>
      obtain ⟨c, rest, hcs, -⟩ := hname.exists_cons
      exact ⟨c, rest, hcs⟩

theorem recognise_of_stands {l : Option Lexeme} {cs tail : List Char} (h : Stands l cs tail)
    (hcolon : tail.head? ≠ some ':') : recognise (cs ++ tail) = some (l, cs.length) := by
  have hbooleans : ["true", "false"] ⊆ reservedWords := List.subset_append_left ..
  have hoperators : operatorWords ⊆ reservedWords := List.subset_append_right ..
  cases h with
  | @comment cs _ hcs htail =>
      have hcomment : commentLength (('/' :: '/' :: cs) ++ tail) = some (2 + cs.length) := by
        rw [commentLength_eq, if_pos (by simp)]
        simp only [List.cons_append, List.drop_succ_cons, List.drop_zero]
        rw [takeWhile_append_of_forall hcs htail]
      rw [recognise_eq, hcomment]
      simp [Nat.add_comm 2]
  | number hnumber =>
      obtain ⟨c, rest, rfl, hc⟩ := hnumber.exists_cons
      have hslash : c ≠ '/' := by
        rintro rfl
        exact absurd hc (by decide)
      rw [recognise_eq, number?_of_isNumber hnumber, List.cons_append, commentLength_cons hslash]
      rfl
  | text htext =>
      have htext' := text?_of_isText htext tail
      cases htext with
      | quoted hquote =>
          rename_i quote inside _
          have hslash : quote ≠ '/' ∧ quote.isDigit = false := by rcases hquote with rfl | rfl <;> decide
          rw [recognise_eq, htext', List.cons_append, List.cons_append, commentLength_cons hslash.1,
            number?_cons hslash.2]
          rfl
  | boolean hword hspells hend =>
      obtain ⟨c, rest, rfl, hc⟩ := hspells.exists_cons (hbooleans hword)
      have hlength := wordLength_of_startsWithWord hbooleans hword
        (startsWithWord_iff.2 ⟨_, _, rfl, hspells, hend⟩)
      rw [← String.length_toList, hspells.length_eq] at hlength
      rw [List.cons_append] at hlength ⊢
      rw [recognise_of_startsWord hc, boolean?, hlength]
      simp
  | @word word _ _ hword hspells hend =>
      obtain ⟨c, rest, rfl, hc⟩ := hspells.exists_cons (hoperators hword)
      have hstarts := startsWithWord_iff.2 ⟨_, _, rfl, hspells, hend⟩
      have hlength := wordLength_of_startsWithWord hoperators hword hstarts
      rw [← String.length_toList, hspells.length_eq] at hlength
      have hboolean : boolean? (c :: rest ++ tail) = none := by
        rw [boolean?, Option.map_eq_none_iff, wordLength_eq_none_iff]
        intro word' hword'
        rw [Bool.eq_false_iff]
        intro hstarts'
        have hdisjoint : ∀ word ∈ operatorWords, word ∉ ["true", "false"] := by decide +kernel
        rw [eq_of_startsWithWord (hbooleans hword') (hoperators hword) hstarts' hstarts] at hword'
        exact hdisjoint word hword hword'
      rw [List.cons_append] at hlength hboolean ⊢
      rw [recognise_of_startsWord hc, hboolean, operator?_of_word hlength]
      simp
  | @sign s _ hsign hcomment =>
      have hs : s ∈ operatorSigns := List.mem_of_find?_eq_some hsign
      have hall : (operatorSigns.all fun s => s.toList.head?.any fun c => !c.isDigit &&
          !(c == '\x22' || c == '\x27') && !c.isAlpha && decide (c.toNat < 128)) = true := by decide +kernel
      have hhead := List.all_eq_true.1 hall s hs
      cases hchars : s.toList with
      | nil => simp [hchars] at hhead
      | cons c rest =>
          rw [hchars] at hsign hcomment hhead
          simp only [List.head?_cons, Option.any_some, Bool.and_eq_true, Bool.not_eq_true',
            Bool.or_eq_false_iff, beq_eq_false_iff_ne, decide_eq_true_eq] at hhead
          obtain ⟨⟨⟨hdigit, hquote⟩, halpha⟩, hascii⟩ := hhead
          rw [recognise_eq, hcomment]
          rw [List.cons_append] at hsign ⊢
          rw [number?_cons hdigit, text?_cons (by simp [hquote]), boolean?,
            wordLength_cons halpha hascii _ hbooleans,
            operator?_of_sign (wordLength_cons halpha hascii _ hoperators), hsign, ← hchars]
          simp [String.length_toList]
  | name hname hwords =>
      have hname' := name?_of_isName hname hcolon
      obtain ⟨c, rest, rfl, hc⟩ := hname.exists_cons
      have hstarts := startsWord_of_startsName hc
      have hboolean : boolean? (c :: rest ++ tail) = none := by
        rw [boolean?, Option.map_eq_none_iff, wordLength_eq_none_iff]
        exact fun word hword => hwords word (hbooleans hword)
      have hoperator : operator? (c :: rest ++ tail) = none := by
        rw [operator?_of_sign (wordLength_eq_none_iff.2 fun word hword => hwords word (hoperators hword)),
          List.cons_append, longestSign?_cons (p := startsName) (by decide +kernel) hc]
        rfl
      rw [List.cons_append] at hboolean hoperator hname' ⊢
      rw [recognise_of_startsWord hstarts, hboolean, hoperator, hname']
      simp only [Option.map_none, Option.none_or, Option.map_some, Option.some_or]
      rw [← List.cons_append, List.drop_left]
  | @mark m _ =>
      have hclass : startsWord m.char = true ∧ m.char.isAlpha = false ∧ m.char.toNat < 128 ∧
          startsName m.char = false ∧ mark? m.char = some m := by cases m <;> decide
      obtain ⟨hstarts, halpha, hascii, hname, hmark⟩ := hclass
      have hsign : longestSign? (m.char :: tail) = none :=
        longestSign?_cons (p := fun c => (mark? c).isSome) (by decide +kernel) (by rw [hmark]; rfl) tail
      rw [List.singleton_append, recognise_of_startsWord hstarts, boolean?,
        wordLength_cons halpha hascii _ hbooleans,
        operator?_of_sign (wordLength_cons halpha hascii _ hoperators), hsign, name?_cons hname, hmark]
      rfl

theorem stands_of_recognise {cs : List Char} {l : Option Lexeme} {n : Nat}
    (h : recognise cs = some (l, n)) :
    ∃ chunk tail, cs = chunk ++ tail ∧ n = chunk.length ∧ Stands l chunk tail := by
  rw [recognise_eq] at h
  simp only [Option.or_eq_some_iff, Option.map_eq_some_iff, Option.map_eq_none_iff, Prod.mk.injEq,
    Prod.exists] at h
  rcases h with ⟨n, hcomment, rfl, rfl⟩ | ⟨hcomment, ⟨x, n, hnumber, rfl, rfl⟩ | ⟨hnumber,
    ⟨s, n, htext, rfl, rfl⟩ | ⟨htext, ⟨b, n, hboolean, rfl, rfl⟩ | ⟨hboolean,
    ⟨symbol, n, hoperator, rfl, rfl⟩ | ⟨hoperator, ⟨hints, s, n, hname, rfl, rfl⟩ | ⟨hname,
    m, hmark, rfl, rfl⟩⟩⟩⟩⟩⟩
  · rw [commentLength_eq] at hcomment
    split at hcomment
    · rename_i hslashes
      obtain ⟨line, tail, hrest, hrun, hline, htail⟩ := exists_run (· != '\n') (cs.drop 2)
      rw [hrun] at hcomment
      cases hcomment
      refine ⟨'/' :: '/' :: line, tail, ?_, ?_, .comment hline htail⟩
      · rw [← List.take_append_drop 2 cs, hslashes, hrest]
        rfl
      · simp [Nat.add_comm 2]
    · cases hcomment
  · obtain ⟨chunk, tail, rfl, rfl, h⟩ := isNumber_of_number? hnumber
    exact ⟨chunk, tail, rfl, rfl, .number h⟩
  · obtain ⟨chunk, tail, rfl, rfl, h⟩ := isText_of_text? htext
    exact ⟨chunk, tail, rfl, rfl, .text h⟩
  · obtain ⟨n, hlength, heq⟩ := Option.map_eq_some_iff.1 hboolean
    obtain ⟨word, hword, chunk, tail, rfl, rfl, hspells, hend⟩ := exists_of_wordLength hlength
    cases heq
    refine ⟨chunk, tail, rfl, rfl, ?_⟩
    rw [List.take_left]
    exact .boolean hword hspells hend
  · cases hlength : wordLength operatorWords cs with
    | some n =>
        obtain ⟨word, hword, chunk, tail, rfl, rfl, hspells, hend⟩ := exists_of_wordLength hlength
        rw [operator?_of_word hlength, List.take_left] at hoperator
        cases hoperator
        exact ⟨chunk, tail, rfl, rfl, .word hword hspells hend⟩
    | none =>
        rw [operator?_of_sign hlength] at hoperator
        obtain ⟨s, hsign, heq⟩ := Option.map_eq_some_iff.1 hoperator
        cases heq
        have hbegins := List.find?_some (p := fun s : String => s.toList.isPrefixOf cs) hsign
        obtain ⟨tail, rfl⟩ := List.isPrefixOf_iff_prefix.1 hbegins
        exact ⟨symbol.toList, tail, rfl, String.length_toList.symm, .sign hsign hcomment⟩
  · obtain ⟨chunk, tail, rfl, rfl, h⟩ := isName_of_name? hname
    refine ⟨chunk, tail, rfl, rfl, ?_⟩
    rw [List.drop_left]
    refine .name h fun word hword => ?_
    have hbooleans := wordLength_eq_none_iff.1 (Option.map_eq_none_iff.1 hboolean)
    rcases List.mem_append.1 hword with hword | hword
    · exact hbooleans word hword
    · refine wordLength_eq_none_iff.1 ?_ word hword
      rw [operator?] at hoperator
      split at hoperator
      · cases hoperator
      · assumption
  · obtain ⟨c, hc, hm⟩ := Option.bind_eq_some_iff.1 hmark
    obtain ⟨tail, rfl⟩ := List.head?_eq_some_iff.1 hc
    refine ⟨[c], tail, rfl, rfl, ?_⟩
    have hchar : c = m.char := by
      unfold mark? at hm
      split at hm <;> cases hm <;> rfl
    rw [hchar]
    exact .mark

end MathExpr.Lexeme
