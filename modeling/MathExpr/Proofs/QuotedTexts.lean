import MathExpr.Proofs.ImpliedProducts
import MathExpr.Text.Quoted

/-!
# Quoted texts are read back

Whatever a text consists of, between quotes it is read back as one token with this content
(`Token.ofSource_quote`). The inside of the quotes goes by pieces of one or two characters of the
text (`Text.escape_induction`): a backslash before a brace stays with the brace, and each other
character is written on its own.

A backslash might as well be doubled everywhere first and halved again before each brace, from the
left to the right, although there may be any number of backslashes in a row
(`Text.escapeChars_eq_passes`).
-/

namespace MathExpr

namespace Text

/-! ### The inside of the quotes, piece by piece -/

section

variable {c b : Char} {rest : List Char}

theorem isBrace_iff : isBrace c = true ↔ c = '\x7b' ∨ c = '\x7d' := by
  simp [isBrace]

theorem ne_of_isBrace (hb : isBrace b = true) : b ≠ '\\' ∧ b ≠ '\n' ∧ b ≠ '\x22' := by
  rcases isBrace_iff.1 hb with rfl | rfl <;> decide

theorem escapeChars_plain (hslash : c ≠ '\\') (hline : c ≠ '\n') (hquote : c ≠ '\x22') :
    escapeChars (c :: rest) = c :: escapeChars rest := by
  rw [escapeChars, if_neg hslash, if_neg hline, if_neg hquote]
  rfl

theorem escapeChars_brace (hb : isBrace b = true) :
    escapeChars ('\\' :: b :: rest) = '\\' :: b :: escapeChars rest := by
  obtain ⟨hslash, hline, hquote⟩ := ne_of_isBrace hb
  rw [escapeChars, if_pos rfl, if_pos (by simpa using hb), escapeChars_plain hslash hline hquote]
  rfl

theorem escapeChars_slash (h : rest.head?.any isBrace = false) :
    escapeChars ('\\' :: rest) = '\\' :: '\\' :: escapeChars rest := by
  rw [escapeChars, if_pos rfl, if_neg (by rw [h]; exact Bool.false_ne_true)]
  rfl

theorem escapeChars_newline : escapeChars ('\n' :: rest) = '\\' :: 'n' :: escapeChars rest := rfl

theorem escapeChars_quote :
    escapeChars ('\x22' :: rest) = '\\' :: '\x22' :: escapeChars rest := rfl

end

/-- Induction over the pieces of a text that are written together. -/
theorem escape_induction {P : List Char → Prop} (nil : P [])
    (brace : ∀ b rest, isBrace b = true → P rest → P ('\\' :: b :: rest))
    (slash : ∀ rest, rest.head?.any isBrace = false → P rest → P ('\\' :: rest))
    (newline : ∀ rest, P rest → P ('\n' :: rest))
    (quote : ∀ rest, P rest → P ('\x22' :: rest))
    (plain : ∀ c rest, c ≠ '\\' → c ≠ '\n' → c ≠ '\x22' → P rest → P (c :: rest)) (cs : List Char) :
    P cs := by
  -- on the length: a backslash and the brace behind it go together
  induction hlength : cs.length using Nat.strong_induction_on generalizing cs with
  | _ n ih =>
  have ih {cs : List Char} (hlt : cs.length < n) : P cs := ih _ hlt cs rfl
  cases cs with
  | nil => exact nil
  | cons c rest =>
      rw [List.length_cons] at hlength
      by_cases hslash : c = '\\'
      · subst hslash
        cases hbrace : rest.head?.any isBrace with
        | false => exact slash rest hbrace (ih (by omega))
        | true =>
            cases rest with
            | nil => cases hbrace
            | cons b rest =>
                rw [List.length_cons] at hlength
                exact brace b rest hbrace (ih (by omega))
      · by_cases hline : c = '\n'
        · subst hline
          exact newline rest (ih (by omega))
        · by_cases hquote : c = '\x22'
          · subst hquote
            exact quote rest (ih (by omega))
          · exact plain c rest hslash hline hquote (ih (by omega))

/-! ### Escaping in passes -/

/-- The text with each backslash doubled. -/
def doubleSlashes (cs : List Char) : List Char :=
  cs.flatMap fun c => if c = '\\' then ['\\', '\\'] else [c]

/-- The text with each doubled backslash before a brace halved, from the left to the right. -/
def halveSlashes : List Char → List Char
  | '\\' :: '\\' :: b :: rest =>
    if isBrace b then '\\' :: b :: halveSlashes rest else '\\' :: halveSlashes ('\\' :: b :: rest)
  | c :: rest => c :: halveSlashes rest
  | [] => []

/-- The text with each new line written with a backslash. -/
def writeNewlines (cs : List Char) : List Char :=
  cs.flatMap fun c => if c = '\n' then ['\\', 'n'] else [c]

/-- The text with a backslash before each quote. -/
def writeQuotes (cs : List Char) : List Char :=
  cs.flatMap fun c => if c = '\x22' then ['\\', '\x22'] else [c]

section

variable {c b : Char} {rest : List Char}

theorem halveSlashes_brace (hb : isBrace b = true) :
    halveSlashes ('\\' :: '\\' :: b :: rest) = '\\' :: b :: halveSlashes rest := by
  rw [halveSlashes, if_pos hb]

theorem halveSlashes_cons (h : ∀ b rest', c = '\\' → rest = '\\' :: b :: rest' → isBrace b = false) :
    halveSlashes (c :: rest) = c :: halveSlashes rest := by
  by_cases hslash : ∃ b rest', c = '\\' ∧ rest = '\\' :: b :: rest'
  · obtain ⟨b, rest, rfl, rfl⟩ := hslash
    rw [halveSlashes, if_neg (by rw [h b rest rfl rfl]; exact Bool.false_ne_true)]
  · rw [halveSlashes]
    exact fun b rest' hc hrest => hslash ⟨b, rest', hc, hrest⟩

theorem doubleSlashes_cons (hc : c ≠ '\\') :
    doubleSlashes (c :: rest) = c :: doubleSlashes rest := by
  simp [doubleSlashes, hc]

theorem doubleSlashes_slash :
    doubleSlashes ('\\' :: rest) = '\\' :: '\\' :: doubleSlashes rest := rfl

/-- Backslashes stand in pairs, and no brace comes after the first of two. -/
theorem isBrace_eq_false_of_doubleSlashes {rest' : List Char}
    (h : doubleSlashes rest = '\\' :: b :: rest') : isBrace b = false := by
  cases rest with
  | nil => cases h
  | cons c rest =>
      by_cases hc : c = '\\'
      · subst hc
        cases h
        rfl
      · rw [doubleSlashes_cons hc] at h
        exact (hc (List.cons.inj h).1).elim

theorem halveSlashes_doubleSlashes_slash (h : rest.head?.any isBrace = false) :
    halveSlashes (doubleSlashes ('\\' :: rest)) = '\\' :: '\\' :: halveSlashes (doubleSlashes rest) := by
  -- doubling changes no first character, so what follows the pair is no brace either
  have hhead {b : Char} {rest' : List Char} (heq : doubleSlashes rest = b :: rest') :
      isBrace b = false := by
    cases rest with
    | nil => cases heq
    | cons c rest =>
        by_cases hc : c = '\\'
        · subst hc
          cases heq
          rfl
        · rw [doubleSlashes_cons hc] at heq
          cases heq
          exact h
  rw [doubleSlashes_slash, halveSlashes_cons, halveSlashes_cons]
  · exact fun b rest' _ heq => isBrace_eq_false_of_doubleSlashes heq
  · intro b rest' _ heq
    exact hhead (List.cons.inj heq).2

theorem halveSlashes_of_ne (h : c ≠ '\\') : halveSlashes (c :: rest) = c :: halveSlashes rest :=
  halveSlashes_cons fun _ _ hc => (h hc).elim

/-- Backslashes that are doubled and then halved before braces, new lines and then quotes: the passes give
the inside of a quoted text. -/
theorem escapeChars_eq_passes (cs : List Char) :
    escapeChars cs = writeQuotes (writeNewlines (halveSlashes (doubleSlashes cs))) := by
  induction cs using escape_induction with
  | nil => rfl
  | brace b rest hb ih =>
      obtain ⟨hslash, hline, hquote⟩ := ne_of_isBrace hb
      rw [escapeChars_brace hb, ih, doubleSlashes_slash, doubleSlashes_cons hslash, halveSlashes_brace hb]
      simp [writeNewlines, writeQuotes, hline, hquote]
  | slash rest hrest ih =>
      rw [escapeChars_slash hrest, ih, halveSlashes_doubleSlashes_slash hrest]
      rfl
  | newline rest ih =>
      rw [escapeChars_newline, ih, doubleSlashes_cons (by decide), halveSlashes_of_ne (by decide)]
      rfl
  | quote rest ih =>
      rw [escapeChars_quote, ih, doubleSlashes_cons (by decide), halveSlashes_of_ne (by decide)]
      rfl
  | plain c rest hslash hline hquote ih =>
      rw [escapeChars_plain hslash hline hquote, ih, doubleSlashes_cons hslash,
        halveSlashes_of_ne hslash]
      simp [writeNewlines, writeQuotes, hline, hquote]

end

end Text

/-! ### Reading -/

namespace Lexeme

open Text

/-- What is written for a text stands for it. -/
theorem unescapeChars_escapeChars (cs : List Char) : unescapeChars (escapeChars cs) = cs := by
  induction cs using escape_induction with
  | nil => rfl
  | brace b rest hb ih =>
      have hn : b ≠ 'n' := by
        rintro rfl
        exact absurd hb (by decide)
      rw [escapeChars_brace hb, unescapeChars, if_neg hn, if_pos (isBrace_iff.1 hb), ih]
  | slash rest hrest ih => rw [escapeChars_slash hrest, unescapeChars, if_neg (by decide),
      if_neg (by decide), ih]
  | newline rest ih => rw [escapeChars_newline, unescapeChars, if_pos rfl, ih]
  | quote rest ih => rw [escapeChars_quote, unescapeChars, if_neg (by decide), if_neg (by decide), ih]
  | plain c rest hslash hline hquote ih =>
      rw [escapeChars_plain hslash hline hquote, unescapeChars, ih]
      exact fun d rest' hc _ => hslash hc

theorem quotedLength_escape {c quote : Char} (hc : c ≠ '\n') (rest : List Char) :
    quotedLength quote ('\\' :: c :: rest) = (quotedLength quote rest).map (· + 2) := by
  rw [quotedLength, if_neg hc]

theorem quotedLength_plain {c quote : Char} (hslash : c ≠ '\\') (hquote : c ≠ quote)
    (rest : List Char) : quotedLength quote (c :: rest) = (quotedLength quote rest).map (· + 1) := by
  rw [quotedLength_cons fun _ _ hc => (hslash hc).elim, if_neg hquote, if_neg hslash]

/-- What is written for a text goes up to the closing quote. -/
theorem quotedLength_escapeChars (cs tail : List Char) :
    quotedLength '\x22' (escapeChars cs ++ '\x22' :: tail) = some (escapeChars cs).length := by
  induction cs using escape_induction with
  | nil => rfl
  | brace b rest hb ih =>
      rw [escapeChars_brace hb, List.cons_append, List.cons_append,
        quotedLength_escape (ne_of_isBrace hb).2.1, ih]
      rfl
  | slash rest hrest ih =>
      rw [escapeChars_slash hrest, List.cons_append, List.cons_append,
        quotedLength_escape (by decide), ih]
      rfl
  | newline rest ih =>
      rw [escapeChars_newline, List.cons_append, List.cons_append, quotedLength_escape (by decide), ih]
      rfl
  | quote rest ih =>
      rw [escapeChars_quote, List.cons_append, List.cons_append, quotedLength_escape (by decide), ih]
      rfl
  | plain c rest hslash hline hquote ih =>
      rw [escapeChars_plain hslash hline hquote, List.cons_append, quotedLength_plain hslash hquote, ih]
      rfl

/-- A text between quotes is one lexeme, whatever follows it. -/
theorem stands_quote (s : String) (tail : List Char) :
    Stands (some (text s)) (Text.quote s).toList tail := by
  have htext : IsText s ('\x22' :: escapeChars s.toList ++ ['\x22']) := by
    have hquoted := IsText.quoted (.inl rfl) (quotedLength_escapeChars s.toList)
    rwa [unescapeChars_escapeChars, String.ofList_toList] at hquoted
  rw [Text.quote, String.toList_ofList]
  exact .text htext

end Lexeme

/-- **Quoted texts.** Between quotes each text is read back as one token. -/
theorem Token.ofSource_quote (s : String) : ofSource (Text.quote s) = .ok [.text s] := by
  have hstands := Lexeme.stands_quote s []
  have hscan : Lexeme.scan (Text.quote s).toList = .ok [.text s] := by
    rw [Text.quote, String.toList_ofList] at hstands ⊢
    have hscan := Lexeme.scan_of_stands hstands rfl nofun
    rwa [List.append_nil, Lexeme.scan] at hscan
  rw [ofSource, hscan]
  rfl

end MathExpr
