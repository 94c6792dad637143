import MathExpr.Proofs.LowerCase
import MathExpr.Proofs.Renaming
import MathExpr.Token.Lexeme
import Mathlib.Data.List.TakeWhile

/-!
# Lexemes in any case

Source text may be written with its ASCII letters in any case, but for those in quoted texts
(`Lexeme.foldCase`): it is cut into the same lexemes, up to the case of names (`Lexeme.scan_of_foldCase_eq`).

Each reader takes as many characters from a text in lower case as from the text itself, because all classes
of characters that it asks for hold letters in both cases or none. What the readers find then differs in
names and quoted texts only (`Lexeme.recognise_map_toLower`), and quoted texts are not folded.
-/

namespace MathExpr

/-! ### Characters -/

namespace Text

theorem toLower_of_le {c : Char} (h : 128 ≤ c.toNat) : c.toLower = c := by
  unfold Char.toLower
  rw [dif_neg]
  intro hc
  have hle : c.val.toNat ≤ 90 := hc.2
  have : c.toNat = c.val.toNat := rfl
  omega

/-- What does not tell ASCII letters in upper case from those in lower case does not change with the
case. -/
theorem apply_toLower {β : Type} {p : Char → β}
    (h : ∀ n : Fin 128, p (Char.ofNat n).toLower = p (Char.ofNat n)) (c : Char) : p c.toLower = p c := by
  by_cases hc : c.toNat < 128
  · simpa only [Char.ofNat_toNat] using h ⟨c.toNat, hc⟩
  · rw [toLower_of_le (Nat.le_of_not_lt hc)]

/-- Only ASCII letters in upper case change. -/
theorem toLower_cases (c : Char) :
    c.toLower = c ∨ 65 ≤ c.toNat ∧ c.toNat ≤ 90 ∧ c.toLower.toNat = c.toNat + 32 := by
  by_cases hc : c.toNat < 128
  · have hall : ∀ n : Fin 128, (Char.ofNat n).toLower = Char.ofNat n ∨ 65 ≤ (Char.ofNat n).toNat ∧
        (Char.ofNat n).toNat ≤ 90 ∧ (Char.ofNat n).toLower.toNat = (Char.ofNat n).toNat + 32 := by decide
    simpa only [Char.ofNat_toNat] using hall ⟨c.toNat, hc⟩
  · exact .inl (toLower_of_le (Nat.le_of_not_lt hc))

theorem toLower_toLower (c : Char) : c.toLower.toLower = c.toLower :=
  apply_toLower (p := Char.toLower) (by decide) c

theorem toLower_of_isAlpha_eq_false {c : Char} (h : c.isAlpha = false) : c.toLower = c := by
  by_cases hc : c.toNat < 128
  · have hall : ∀ n : Fin 128, (Char.ofNat n).isAlpha = false →
        (Char.ofNat n).toLower = Char.ofNat n := by decide
    simpa only [Char.ofNat_toNat] using hall ⟨c.toNat, hc⟩ (by rwa [Char.ofNat_toNat])
  · exact toLower_of_le (Nat.le_of_not_lt hc)

/-- Only a letter becomes a letter. -/
theorem toLower_eq_iff {c d : Char} (hd : d.isAlpha = false) : c.toLower = d ↔ c = d := by
  constructor
  · intro h
    have halpha : c.toLower.isAlpha = c.isAlpha := apply_toLower (p := Char.isAlpha) (by decide) c
    rw [h, hd] at halpha
    rwa [toLower_of_isAlpha_eq_false halpha.symm] at h
  · intro h
    rw [h, toLower_of_isAlpha_eq_false hd]

theorem takeWhile_map_toLower {p : Char → Bool} (h : ∀ c : Char, p c.toLower = p c) (cs : List Char) :
    (cs.map Char.toLower).takeWhile p = (cs.takeWhile p).map Char.toLower := by
  rw [List.takeWhile_map]
  congr 1
  exact congrArg (cs.takeWhile ·) (funext h)

theorem dropWhile_map_toLower {p : Char → Bool} (h : ∀ c : Char, p c.toLower = p c) (cs : List Char) :
    (cs.map Char.toLower).dropWhile p = (cs.dropWhile p).map Char.toLower := by
  rw [List.dropWhile_map]
  congr 1
  exact congrArg (cs.dropWhile ·) (funext h)

/-! ### Lower case -/

/-- The characters that are passed over are no ASCII letters. -/
theorem ignorableRanges_toLower (c : Char) :
    ignorableRanges.contains c.toLower.toNat = ignorableRanges.contains c.toNat := by
  have hall : (ignorableRanges.all fun r =>
      (decide (r.2 < 65) || decide (90 < r.1)) && (decide (r.2 < 97) || decide (122 < r.1))) = true := by
    decide +kernel
  have hnone (n : Nat) (hn : 65 ≤ n ∧ n ≤ 90 ∨ 97 ≤ n ∧ n ≤ 122) : ignorableRanges.contains n = false := by
    refine List.any_eq_false.2 fun r hr => ?_
    have hr := List.all_eq_true.1 hall r hr
    simp only [Bool.and_eq_true, Bool.or_eq_true, decide_eq_true_eq] at hr ⊢
    omega
  rcases toLower_cases c with heq | ⟨hfirst, hlast, heq⟩
  · rw [heq]
  · rw [hnone c.toNat (.inl ⟨hfirst, hlast⟩), hnone c.toLower.toNat (.inr (by omega))]

/-- ASCII letters have a case. -/
theorem casedRanges_toLower (c : Char) :
    casedRanges.contains c.toLower.toNat = casedRanges.contains c.toNat := by
  rcases toLower_cases c with heq | ⟨hfirst, hlast, heq⟩
  · rw [heq]
  · have hupper : casedRanges.contains c.toNat = true :=
      List.any_eq_true.2 ⟨(0x41, 0x5a), .head _, by simp; omega⟩
    have hlower : casedRanges.contains c.toLower.toNat = true :=
      List.any_eq_true.2 ⟨(0x61, 0x7a), .tail _ (.head _), by simp; omega⟩
    rw [hupper, hlower]

theorem meetsCased_map_toLower (cs : List Char) : meetsCased (cs.map Char.toLower) = meetsCased cs := by
  unfold meetsCased
  rw [dropWhile_map_toLower ignorableRanges_toLower]
  cases cs.dropWhile fun c => ignorableRanges.contains c.toNat with
  | nil => rfl
  | cons c rest => exact casedRanges_toLower c

theorem lowerChar_toLower (c : Char) : lowerChar c.toLower = lowerChar c := by
  by_cases hc : c.toNat < 128
  · rw [lowerChar, lowerChar, if_pos hc, if_pos (toLower_ascii hc).1, toLower_toLower]
  · rw [toLower_of_le (Nat.le_of_not_lt hc)]

theorem lowerChars_map_toLower (before cs : List Char) :
    lowerChars (before.map Char.toLower) (cs.map Char.toLower) = lowerChars before cs := by
  induction cs generalizing before with
  | nil => rfl
  | cons c rest ih =>
      have hsigma : (c.toLower.toNat = 0x3a3) = (c.toNat = 0x3a3) :=
        apply_toLower (p := fun c => c.toNat = 0x3a3)
          (fun n => propext ((by decide : ∀ n : Fin 128, (Char.ofNat n).toLower.toNat = 0x3a3 ↔
            (Char.ofNat n).toNat = 0x3a3) n)) c
      rw [List.map_cons, lowerChars, lowerChars, ← List.map_cons, ih, meetsCased_map_toLower,
        meetsCased_map_toLower, lowerChar_toLower]
      simp only [hsigma]

/-- Lower case does not depend on the case of ASCII letters. -/
theorem lower_map_toLower (cs : List Char) :
    lower (String.ofList (cs.map Char.toLower)) = lower (String.ofList cs) := by
  have hascii : (cs.map Char.toLower).all (fun c : Char => decide (c.toNat < 128)) =
      cs.all fun c : Char => decide (c.toNat < 128) := by
    rw [List.all_map]
    congr 1
    funext c
    exact apply_toLower (p := fun c => decide (c.toNat < 128)) (by decide) c
  unfold lower
  rw [String.toList_ofList, String.toList_ofList, hascii, List.map_map]
  rw [show Char.toLower ∘ Char.toLower = Char.toLower from funext toLower_toLower]
  rw [show lowerChars [] (cs.map Char.toLower) = lowerChars [] cs from lowerChars_map_toLower [] cs]

end Text

/-! ### Readers -/

namespace Lexeme

open Text (toLower_eq_iff takeWhile_map_toLower apply_toLower toLower_toLower)

theorem isSkipped_toLower (c : Char) : isSkipped c.toLower = isSkipped c :=
  apply_toLower (p := isSkipped) (by decide) c

theorem isWordChar_toLower (c : Char) : isWordChar c.toLower = isWordChar c :=
  apply_toLower (p := isWordChar) (by decide) c

theorem isNameChar_toLower (c : Char) : isNameChar c.toLower = isNameChar c :=
  apply_toLower (p := isNameChar) (by decide) c

theorem isAsciiLetter_toLower (c : Char) : isAsciiLetter c.toLower = isAsciiLetter c :=
  apply_toLower (p := isAsciiLetter) (by decide) c

theorem isDigit_toLower (c : Char) : c.toLower.isDigit = c.isDigit :=
  apply_toLower (p := Char.isDigit) (by decide) c

theorem isForm_toLower (letter c : Char) : isForm letter c.toLower = isForm letter c := by
  have htoNat {k : Nat} (hk : ∀ n : Fin 128, ((Char.ofNat n).toLower.toNat == k) = ((Char.ofNat n).toNat == k)) :
      (c.toLower.toNat == k) = (c.toNat == k) := apply_toLower (p := fun c => c.toNat == k) hk c
  unfold isForm
  rw [toLower_toLower, htoNat (k := 0x130) (by decide), htoNat (k := 0x131) (by decide),
    htoNat (k := 0x17f) (by decide)]

/-- A list of characters that are no letters stays as it is, and no other list becomes it. -/
theorem map_toLower_eq_iff {cs ds : List Char} (hds : ∀ d ∈ ds, d.isAlpha = false) :
    cs.map Char.toLower = ds ↔ cs = ds := by
  induction cs generalizing ds with
  | nil => rfl
  | cons c rest ih =>
      cases ds with
      | nil => simp
      | cons d ds =>
          rw [List.map_cons, List.cons.injEq, List.cons.injEq, toLower_eq_iff (hds d List.mem_cons_self),
            ih fun d' hd' => hds d' (List.mem_cons_of_mem d hd')]

theorem take_map_toLower_eq_iff (n : Nat) (ds : List Char) (hds : ds.any Char.isAlpha = false)
    (cs : List Char) : (cs.map Char.toLower).take n = ds ↔ cs.take n = ds := by
  rw [← List.map_take, map_toLower_eq_iff]
  simpa only [List.any_eq_false, Bool.not_eq_true] using hds

theorem eq_cons_of_take_one {cs : List Char} {c : Char} (h : cs.take 1 = [c]) : cs = c :: cs.drop 1 := by
  rw [← List.take_append_drop 1 cs, h]
  rfl

theorem commentLength_eq (cs : List Char) :
    commentLength cs =
      if cs.take 2 = ['/', '/'] then some (2 + ((cs.drop 2).takeWhile (· != '\n')).length) else none := by
  unfold commentLength
  split
  · rfl
  · rename_i hne
    refine (if_neg fun h => hne (cs.drop 2) ?_).symm
    rw [← List.take_append_drop 2 cs, h]
    rfl

theorem commentLength_map_toLower (cs : List Char) :
    commentLength (cs.map Char.toLower) = commentLength cs := by
  have hline : ∀ c : Char, (c.toLower != '\n') = (c != '\n') :=
    apply_toLower (p := (· != '\n')) (by decide)
  have hrest := takeWhile_map_toLower (p := (· != '\n')) hline (cs.drop 2)
  simp only [commentLength_eq, take_map_toLower_eq_iff 2 ['/', '/'] (by decide), ← List.map_drop, hrest,
    List.length_map]

/-- No letter is a digit. -/
theorem isDigit_of_isAlpha {c : Char} (h : c.isAlpha = true) : c.isDigit = false := by
  by_contra hdigit
  rw [Bool.not_eq_false] at hdigit
  obtain ⟨-, hle⟩ := Bool.and_eq_true_iff.1 (show (decide _ && decide _) = true from hdigit)
  have hle : c.val.toNat ≤ 57 := of_decide_eq_true hle
  rcases Bool.or_eq_true_iff.1 (show (c.isUpper || c.isLower) = true from h) with hupper | hlower
  · have hge : 65 ≤ c.val.toNat := (of_decide_eq_true hupper).1
    omega
  · obtain ⟨hge, -⟩ := Bool.and_eq_true_iff.1 (show (decide _ && decide _) = true from hlower)
    have hge : 97 ≤ c.val.toNat := of_decide_eq_true hge
    omega

theorem takeWhile_isDigit_map_toLower (cs : List Char) :
    (cs.map Char.toLower).takeWhile Char.isDigit = cs.takeWhile Char.isDigit := by
  rw [takeWhile_map_toLower isDigit_toLower, map_toLower_eq_iff]
  · intro d hd
    have hdigit := List.mem_takeWhile_imp hd
    cases halpha : d.isAlpha with
    | false => rfl
    | true => exact absurd hdigit (by rw [isDigit_of_isAlpha halpha]; exact Bool.false_ne_true)

theorem numberDigits_eq (cs : List Char) :
    numberDigits cs =
      let whole := cs.takeWhile Char.isDigit
      let rest := cs.drop whole.length
      (whole, if rest.take 1 = ['.'] then (rest.drop 1).takeWhile Char.isDigit else []) := by
  unfold numberDigits
  dsimp only
  split
  · rename_i rest heq
    rw [heq]
    rfl
  · rename_i hne
    rw [if_neg]
    exact fun h => hne _ (eq_cons_of_take_one h)

theorem number?_map_toLower (cs : List Char) : number? (cs.map Char.toLower) = number? cs := by
  have hdigits : numberDigits (cs.map Char.toLower) = numberDigits cs := by
    simp only [numberDigits_eq, takeWhile_isDigit_map_toLower, ← List.map_drop,
      take_map_toLower_eq_iff 1 ['.'] (by decide)]
  unfold number?
  rw [hdigits]

/-- A character that does not escape another. -/
theorem quotedLength_cons {quote c : Char} {rest : List Char}
    (h : ∀ d rest', c = '\\' → rest = d :: rest' → False) :
    quotedLength quote (c :: rest) =
      if c = quote then some 0
      else if c = '\\' then none
      else (quotedLength quote rest).map (· + 1) := by
  rw [quotedLength]
  exact h

theorem quotedLength_map_toLower {quote : Char} (hquote : quote.isAlpha = false) (cs : List Char) :
    quotedLength quote (cs.map Char.toLower) = quotedLength quote cs := by
  have hescape : Char.toLower '\\' = '\\' := rfl
  have hcons {c : Char} {rest : List Char} (h : ∀ d rest', c = '\\' → rest = d :: rest' → False) :
      quotedLength quote ((c :: rest).map Char.toLower) =
        if c = quote then some 0
        else if c = '\\' then none
        else (quotedLength quote (rest.map Char.toLower)).map (· + 1) := by
    rw [List.map_cons, quotedLength_cons]
    · simp only [toLower_eq_iff hquote, toLower_eq_iff (show Char.isAlpha '\\' = false from rfl)]
    · intro d rest' hc hrest
      cases rest with
      | nil => cases hrest
      | cons e rest => exact h e rest ((toLower_eq_iff rfl).1 hc) rfl
  fun_induction quotedLength quote cs with
  | case1 => rfl
  | case2 rest => rfl
  | case3 c rest hc ih =>
      rw [List.map_cons, List.map_cons, hescape, quotedLength, if_neg (by rwa [toLower_eq_iff rfl]), ih]
  | case4 rest h => rw [hcons h, if_pos rfl]
  | case5 rest h hne => rw [hcons h, if_neg hne, if_pos rfl]
  | case6 c rest h hne hne' ih => rw [hcons h, if_neg hne, if_neg hne', ih]

theorem text?_map_toLower (cs : List Char) :
    (text? (cs.map Char.toLower)).map Prod.snd = (text? cs).map Prod.snd := by
  cases cs with
  | nil => rfl
  | cons c rest =>
      rw [List.map_cons, text?, text?]
      simp only [toLower_eq_iff (show Char.isAlpha '\x22' = false from rfl),
        toLower_eq_iff (show Char.isAlpha '\x27' = false from rfl)]
      split
      · rename_i hquote
        have halpha : c.isAlpha = false := by rcases hquote with rfl | rfl <;> rfl
        rw [Text.toLower_of_isAlpha_eq_false halpha, quotedLength_map_toLower halpha, Option.map_map,
          Option.map_map]
        rfl
      · rfl

/-! #### Words -/

theorem startsWithWord_map_toLower (cs word : List Char) :
    startsWithWord (cs.map Char.toLower) word = startsWithWord cs word := by
  have hforms : (List.zipWith isForm word (cs.map Char.toLower)).all id =
      (List.zipWith isForm word cs).all id := by
    rw [List.zipWith_map_right]
    simp only [isForm_toLower]
  have hend : ((cs.map Char.toLower).drop word.length).head?.all (fun c => !isWordChar c) =
      (cs.drop word.length).head?.all fun c => !isWordChar c := by
    rw [← List.map_drop, List.head?_map]
    cases (cs.drop word.length).head? with
    | none => rfl
    | some c => exact congrArg (!·) (isWordChar_toLower c)
  unfold startsWithWord
  rw [List.length_map, hforms, hend]

theorem wordLength_map_toLower (words : List String) (cs : List Char) :
    wordLength words (cs.map Char.toLower) = wordLength words cs := by
  unfold wordLength
  simp only [startsWithWord_map_toLower]

theorem lower_take_map_toLower (cs : List Char) (n : Nat) :
    Text.lower (String.ofList ((cs.map Char.toLower).take n)) = Text.lower (String.ofList (cs.take n)) := by
  rw [← List.map_take, Text.lower_map_toLower]

theorem boolean?_map_toLower (cs : List Char) : boolean? (cs.map Char.toLower) = boolean? cs := by
  unfold boolean?
  simp only [wordLength_map_toLower, lower_take_map_toLower]

theorem isPrefixOf_map_toLower {ds : List Char} (hds : ∀ d ∈ ds, d.isAlpha = false) (cs : List Char) :
    ds.isPrefixOf (cs.map Char.toLower) = ds.isPrefixOf cs := by
  rw [Bool.eq_iff_iff, List.isPrefixOf_iff_prefix, List.isPrefixOf_iff_prefix, List.prefix_iff_eq_take,
    List.prefix_iff_eq_take, eq_comm, ← List.map_take, map_toLower_eq_iff hds, eq_comm]

theorem find?_congr_of_mem {α : Type} {p q : α → Bool} {as : List α} (h : ∀ a ∈ as, p a = q a) :
    as.find? p = as.find? q := by
  induction as with
  | nil => rfl
  | cons a rest ih =>
      rw [List.find?_cons, List.find?_cons, h a List.mem_cons_self,
        ih fun b hb => h b (List.mem_cons_of_mem a hb)]

/-- The signs are no letters. -/
theorem isAlpha_operatorSigns {s : String} (hs : s ∈ operatorSigns) : ∀ c ∈ s.toList, c.isAlpha = false := by
  have hall : (operatorSigns.all fun s => s.toList.all fun c => !c.isAlpha) = true := by decide +kernel
  intro c hc
  have hs := List.all_eq_true.1 (List.all_eq_true.1 hall s hs) c hc
  exact (Bool.not_eq_true' _).mp hs

theorem operator?_map_toLower (cs : List Char) : operator? (cs.map Char.toLower) = operator? cs := by
  have hsigns : (operatorSigns.find? fun s => s.toList.isPrefixOf (cs.map Char.toLower)) =
      operatorSigns.find? fun s => s.toList.isPrefixOf cs := by
    refine find?_congr_of_mem fun s hs => ?_
    exact isPrefixOf_map_toLower (isAlpha_operatorSigns hs) cs
  unfold operator?
  rw [wordLength_map_toLower, hsigns]
  simp only [lower_take_map_toLower]

/-! #### Names -/

theorem plainNameLength_eq (cs : List Char) :
    plainNameLength cs =
      if cs.take 2 = ['?', '?'] then some 2
      else if cs.take 1 = ['?'] then some 1
      else
        let start := if cs.take 1 = ['$'] then 1 else 0
        match cs.drop start with
        | c :: rest =>
          if isAsciiLetter c || c == '_' then
            let body := rest.takeWhile isNameChar
            some (start + 1 + body.length + ((rest.drop body.length).takeWhile (· == '\x27')).length)
          else none
        | [] => none := by
  unfold plainNameLength
  split
  · rfl
  · rename_i rest hne
    rcases rest with _ | ⟨d, rest⟩
    · rfl
    · have hd : ('?' :: d :: rest).take 2 ≠ ['?', '?'] := by
        intro h
        have hd : d = '?' := (List.cons.inj (List.cons.inj h).2).1
        exact hne rest (by rw [hd])
      rw [if_neg hd]
      rfl
  · rename_i hne hne'
    have htwo : cs.take 2 ≠ ['?', '?'] := by
      intro h
      have hone := congrArg (List.take 1) h
      rw [List.take_take] at hone
      exact hne' _ (eq_cons_of_take_one hone)
    rw [if_neg htwo, if_neg fun h => hne' _ (eq_cons_of_take_one h)]
    by_cases hdollar : cs.take 1 = ['$']
    · obtain ⟨rest, rfl⟩ : ∃ rest, cs = '$' :: rest := ⟨_, eq_cons_of_take_one hdollar⟩
      rfl
    · rw [if_neg hdollar]
      cases cs with
      | nil => rfl
      | cons c rest =>
          have hc : c ≠ '$' := by
            rintro rfl
            exact hdollar rfl
          simp [hc]

theorem plainNameLength_map_toLower (cs : List Char) :
    plainNameLength (cs.map Char.toLower) = plainNameLength cs := by
  have hprime : ∀ c : Char, (c.toLower == '\x27') = (c == '\x27') :=
    apply_toLower (p := (· == '\x27')) (by decide)
  have hunderscore : ∀ c : Char, (c.toLower == '_') = (c == '_') :=
    apply_toLower (p := (· == '_')) (by decide)
  rw [plainNameLength_eq, plainNameLength_eq]
  simp only [take_map_toLower_eq_iff 2 ['?', '?'] (by decide), take_map_toLower_eq_iff 1 ['?'] (by decide),
    take_map_toLower_eq_iff 1 ['$'] (by decide), ← List.map_drop]
  cases cs.drop (if cs.take 1 = ['$'] then 1 else 0) with
  | nil => rfl
  | cons c rest =>
      simp only [List.map_cons, isAsciiLetter_toLower, hunderscore, takeWhile_map_toLower isNameChar_toLower,
        List.length_map, ← List.map_drop]
      rw [takeWhile_map_toLower (p := (· == '\x27')) hprime, List.length_map]

/-- A text with its ASCII letters in lower case. -/
def asciiLower (s : String) : String := String.ofList (s.toList.map Char.toLower)

theorem name?_eq (cs : List Char) :
    name? cs =
      let plain := (plainNameLength cs).map fun n => ([], String.ofList (cs.take n), n)
      let letters := cs.takeWhile isAsciiLetter
      let rest := cs.drop letters.length
      if rest.take 1 = [':'] then
        if letters.isEmpty then plain
        else
          match name? (rest.drop 1) with
          | some (hints, s, n) =>
            some (String.ofList letters :: hints, s, letters.length + 1 + n)
          | none => plain
      else plain := by
  rw [name?]
  dsimp only
  split
  · rename_i rest heq
    rw [heq]
    rfl
  · rename_i hne
    rw [if_neg fun h => hne _ (eq_cons_of_take_one h)]

theorem asciiLower_ofList (cs : List Char) :
    asciiLower (String.ofList cs) = String.ofList (cs.map Char.toLower) := by
  rw [asciiLower, String.toList_ofList]

theorem asciiLower_asciiLower (s : String) : asciiLower (asciiLower s) = asciiLower s := by
  unfold asciiLower
  rw [String.toList_ofList, List.map_map]
  exact congrArg (fun f => String.ofList (s.toList.map f)) (funext toLower_toLower)

theorem lower_asciiLower (s : String) : Text.lower (asciiLower s) = Text.lower s := by
  rw [asciiLower, Text.lower_map_toLower, String.ofList_toList]

/-- A name and its hints are read in any case. -/
theorem name?_map_toLower (cs : List Char) :
    name? (cs.map Char.toLower) =
      (name? cs).map fun r => (r.1.map asciiLower, asciiLower r.2.1, r.2.2) := by
  induction hlength : cs.length using Nat.strong_induction_on generalizing cs with
  | _ k ih =>
  have hplain : ((plainNameLength (cs.map Char.toLower)).map fun n =>
        (([] : List String), String.ofList ((cs.map Char.toLower).take n), n)) =
      ((plainNameLength cs).map fun n => ([], String.ofList (cs.take n), n)).map
        fun r => (r.1.map asciiLower, asciiLower r.2.1, r.2.2) := by
    rw [plainNameLength_map_toLower, Option.map_map]
    congr 1
    funext n
    simp only [Function.comp_apply, List.map_nil, asciiLower_ofList, List.map_take]
  rw [name?_eq, name?_eq cs]
  dsimp only
  rw [hplain, takeWhile_map_toLower isAsciiLetter_toLower, List.length_map, ← List.map_drop]
  generalize hrest : cs.drop (cs.takeWhile isAsciiLetter).length = rest
  simp only [take_map_toLower_eq_iff 1 [':'] (by decide), List.isEmpty_map, ← List.map_drop]
  by_cases hcolon : rest.take 1 = [':']
  · rw [if_pos hcolon, if_pos hcolon]
    cases (cs.takeWhile isAsciiLetter).isEmpty with
    | true => rfl
    | false =>
        have hlt : (rest.drop 1).length < k := by
          have hcons := congrArg List.length (eq_cons_of_take_one hcolon)
          have hle := congrArg List.length hrest
          rw [List.length_drop] at hle
          rw [List.length_cons] at hcons
          omega
        rw [ih _ hlt (rest.drop 1) rfl]
        cases name? (rest.drop 1) with
        | none => rfl
        | some r => simp [asciiLower_ofList]
  · rw [if_neg hcolon, if_neg hcolon]

theorem mark?_toLower (c : Char) : mark? c.toLower = mark? c :=
  apply_toLower (p := mark?) (by decide) c

/-! ### Scanning -/

/-- A lexeme without what depends on the case of letters, or is a text. -/
def outline : Lexeme → Lexeme
  | text _ => text ""
  | name hints s applied => name (hints.map asciiLower) (asciiLower s) applied
  | l => l

/-- What is recognised in a text in lower case has the same outline and length. -/
theorem recognise_map_toLower (cs : List Char) :
    (recognise (cs.map Char.toLower)).map (fun r => (r.1.map outline, r.2)) =
      (recognise cs).map fun r => (r.1.map outline, r.2) := by
  unfold recognise
  rw [commentLength_map_toLower]
  cases commentLength cs with
  | some n => rfl
  | none =>
  rw [number?_map_toLower]
  cases number? cs with
  | some r => rfl
  | none =>
  have htext := text?_map_toLower cs
  cases htext' : text? cs with
  | some r =>
      rw [htext'] at htext
      obtain ⟨r', hr', hlength⟩ := Option.map_eq_some_iff.1 htext
      rw [hr']
      exact congrArg (fun n => some (some (text ""), n)) hlength
  | none =>
  rw [htext'] at htext
  rw [Option.map_eq_none_iff.1 htext, boolean?_map_toLower]
  cases boolean? cs with
  | some r => rfl
  | none =>
  rw [operator?_map_toLower]
  cases operator? cs with
  | some r => rfl
  | none =>
  rw [name?_map_toLower]
  cases name? cs with
  | some r =>
      have hopen : ∀ c : Char, (c.toLower == '(') = (c == '(') :=
        apply_toLower (p := (· == '(')) (by decide)
      have hround : (((cs.map Char.toLower).drop r.2.2).head? == some '(') =
          ((cs.drop r.2.2).head? == some '(') := by
        rw [← List.map_drop, List.head?_map]
        cases (cs.drop r.2.2).head? with
        | none => rfl
        | some c => exact hopen c
      have hhints : asciiLower ∘ asciiLower = asciiLower := funext asciiLower_asciiLower
      simp only [Option.map_some, hround, outline, List.map_map, hhints, asciiLower_asciiLower]
  | none =>
  cases cs with
  | nil => rfl
  | cons c rest =>
      simp only [List.map_cons, List.head?_cons, Option.bind_some, mark?_toLower, Option.map_none]

/-- The characters of a lexeme with ASCII letters in lower case, if they are no quoted text. -/
def foldCharacters : Option Lexeme → List Char → List Char
  | some (.text _), cs => cs
  | _, cs => cs.map Char.toLower

/-- A text with its ASCII letters in lower case, but for those in quoted texts. What cannot be read is
folded up to the end. -/
def foldCase : List Char → List Char
  | [] => []
  | c :: rest =>
    if isSkipped c then c :: foldCase rest
    else
      match recognise (c :: rest) with
      | none => (c :: rest).map Char.toLower
      | some (l, n) => foldCharacters l (c :: rest.take (n - 1)) ++ foldCase (rest.drop (n - 1))
termination_by cs => cs.length
decreasing_by
  · simp
  · simp only [List.length_drop, List.length_cons]
    omega

theorem map_toLower_foldCharacters (l : Option Lexeme) (cs : List Char) :
    (foldCharacters l cs).map Char.toLower = cs.map Char.toLower := by
  unfold foldCharacters
  split
  · rfl
  · rw [List.map_map]
    exact congrArg (cs.map ·) (funext toLower_toLower)

theorem length_foldCharacters (l : Option Lexeme) (cs : List Char) :
    (foldCharacters l cs).length = cs.length := by
  have hlength := congrArg List.length (map_toLower_foldCharacters l cs)
  rwa [List.length_map, List.length_map] at hlength

/-- Equal lexemes, or names in another case. -/
inductive SameName : Lexeme → Lexeme → Prop
  | refl (l : Lexeme) : SameName l l
  | name (hints hints' : List String) {s s' : String} (h : Text.lower s = Text.lower s') (applied : Bool) :
      SameName (.name hints s applied) (.name hints' s' applied)

/-- Lexemes with the same outline are equal up to the case of names, if they are no texts. -/
theorem sameName_of_outline_eq {l l' : Lexeme} (h : l.outline = l'.outline)
    (htext : ∀ s s', l = .text s → l' = .text s' → s = s') : SameName l l' := by
  cases l with
  | text s =>
      cases l' with
      | text s' =>
          rw [htext s s' rfl rfl]
          exact .refl _
      | _ => cases h
  | name hints s applied =>
      cases l' with
      | name hints' s' applied' =>
          simp only [outline, Lexeme.name.injEq] at h
          obtain ⟨-, hname, rfl⟩ := h
          refine .name _ _ ?_ _
          rw [← lower_asciiLower, hname, lower_asciiLower]
      | _ => cases h
  | _ =>
      cases l' <;> cases h
      exact .refl _

theorem text?_of_recognise {cs : List Char} {s : String} {n : Nat}
    (h : recognise cs = some (some (.text s), n)) : text? cs = some (s, n) := by
  unfold recognise at h
  split at h
  · cases h
  split at h
  · cases h
  split at h
  · rename_i htext
    cases h
    exact htext
  split at h
  · cases h
  split at h
  · cases h
  split at h
  · cases h
  split at h <;> cases h

/-- The text of a lexeme is what stands between its quotes. -/
theorem eq_of_recognise_text {c : Char} {rest : List Char} {s : String} {n : Nat}
    (h : recognise (c :: rest) = some (some (.text s), n)) :
    s = String.ofList (unescapeChars (rest.take (n - 2))) := by
  have htext := text?_of_recognise h
  rw [text?] at htext
  split at htext
  · obtain ⟨m, -, hm⟩ := Option.map_eq_some_iff.1 htext
    cases hm
    rfl
  · cases htext

/-- Folding only changes the case of letters. -/
theorem map_toLower_foldCase (cs : List Char) :
    (foldCase cs).map Char.toLower = cs.map Char.toLower := by
  have hidem : Char.toLower ∘ Char.toLower = Char.toLower := funext toLower_toLower
  fun_induction foldCase cs with
  | case1 => rfl
  | case2 c rest hc ih => rw [List.map_cons, List.map_cons, ih]
  | case3 c rest hc h => rw [List.map_map, hidem]
  | case4 c rest hc l n h ih =>
      rw [List.map_append, ih, map_toLower_foldCharacters, ← List.map_append, List.cons_append,
        List.take_append_drop]

/-- **Case.** Texts that are the same when folded are cut into the same lexemes, up to the case of
names. -/
theorem scan_of_foldCase_eq {cs ds : List Char} (h : foldCase cs = foldCase ds) :
    AgreesUpTo Error.kind (List.Forall₂ SameName) (scan cs) (scan ds) := by
  induction hlength : cs.length using Nat.strong_induction_on generalizing cs ds with
  | _ k ih =>
  have hmap := congrArg (List.map Char.toLower) h
  rw [map_toLower_foldCase, map_toLower_foldCase] at hmap
  rcases cs with _ | ⟨c, rest⟩
  · cases ds with
    | nil =>
        rw [scan]
        exact .ok .nil
    | cons => cases hmap
  rcases ds with _ | ⟨d, rest'⟩
  · cases hmap
  obtain ⟨hcd, hrest⟩ := List.cons.inj hmap
  have hskipped : isSkipped c = isSkipped d := by rw [← isSkipped_toLower c, hcd, isSkipped_toLower]
  have houtline := recognise_map_toLower (c :: rest)
  rw [hmap, recognise_map_toLower] at houtline
  rw [scan, scan, hskipped]
  cases hd : isSkipped d with
  | true =>
      rw [if_pos rfl, if_pos rfl]
      rw [foldCase, foldCase, hskipped, hd, if_pos rfl, if_pos rfl] at h
      exact ih rest.length (by rw [← hlength]; simp) (List.cons.inj h).2 rfl
  | false =>
  rw [if_neg Bool.false_ne_true, if_neg Bool.false_ne_true]
  cases hc' : recognise (c :: rest) with
  | none =>
      rw [hc', Option.map_none, Option.map_eq_none_iff] at houtline
      rw [houtline]
      exact .error rfl
  | some r =>
  rw [hc'] at houtline
  obtain ⟨r', hd', hr⟩ := Option.map_eq_some_iff.1 houtline
  obtain ⟨l, n⟩ := r
  obtain ⟨l', n'⟩ := r'
  simp only [Prod.mk.injEq] at hr
  obtain ⟨hl, rfl⟩ := hr
  rw [hd']
  -- the folded texts are the same up to the end of the lexeme, and behind it
  rw [foldCase, foldCase, hskipped, hd, if_neg Bool.false_ne_true, if_neg Bool.false_ne_true, hc', hd'] at h
  have hrestLength := congrArg List.length hrest
  rw [List.length_map, List.length_map] at hrestLength
  obtain ⟨hhead, htail⟩ := List.append_inj h (by
    rw [length_foldCharacters, length_foldCharacters, List.length_cons, List.length_cons, List.length_take,
      List.length_take, hrestLength])
  have hrun := ih (rest.drop (n' - 1)).length
    (by rw [← hlength, List.length_drop, List.length_cons]; omega) htail rfl
  have hlexeme : List.Forall₂ SameName l.toList l'.toList := by
    cases l with
    | none =>
        cases Option.map_eq_none_iff.1 hl
        exact .nil
    | some l =>
        obtain ⟨l', rfl, hl⟩ := Option.map_eq_some_iff.1 hl
        refine .cons (sameName_of_outline_eq (Option.some.inj hl).symm ?_) .nil
        rintro s s' rfl rfl
        -- quoted texts are not folded
        have htake : (rest.take (n' - 1)).take (n' - 2) = (rest'.take (n' - 1)).take (n' - 2) :=
          congrArg (List.take (n' - 2)) (List.cons.inj hhead).2
        rw [List.take_take, List.take_take, show min (n' - 2) (n' - 1) = n' - 2 by omega] at htake
        rw [eq_of_recognise_text hc', eq_of_recognise_text hd', htake]
  exact hrun.bind fun ls ls' hls => .ok (List.rel_append hlexeme hls)

end Lexeme

end MathExpr
