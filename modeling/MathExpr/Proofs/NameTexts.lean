import MathExpr.Proofs.Leaves
import MathExpr.Proofs.LexicalGrammar
import MathExpr.Proofs.NumberTexts

/-!
# Characters of names and operators

Names are letters, digits and a few signs, and operators are signs or words. In a tree that is read from
source text none of them has a backslash or a brace, so that only its texts can have some
(`Tree.madeOf_of_ofSourceIn`).
-/

namespace MathExpr

/-! ### Lexemes -/

namespace Lexeme

open Text (apply_toLower)

/-- The lower case of a letter has no signs, and neither has that of its third form. -/
theorem isPlain_lowerChar_of_isForm {letter c : Char} (hletter : letter.isAlpha = true ∧ letter.toNat < 128)
    (h : isForm letter c = true) : c.toNat ≠ 0x3a3 ∧ Text.IsPlain (Text.lowerChar c) := by
  by_cases hc : c.toNat < 128
  · refine ⟨by omega, ?_⟩
    rw [Text.lowerChar, if_pos hc]
    refine List.forall_mem_singleton.2 (Text.isPlain_of_isAlpha ?_)
    rw [apply_toLower (p := Char.isAlpha) (by decide)]
    exact (isAlpha_of_isForm hletter.1 h).resolve_right (by omega)
  · have hform : c.toNat = 0x130 ∨ c.toNat = 0x131 ∨ c.toNat = 0x17f := by
      simp only [isForm, Bool.or_eq_true, Bool.and_eq_true, beq_iff_eq] at h
      rcases h with (h | ⟨-, h⟩) | ⟨-, h⟩
      · rw [Text.toLower_of_le (by omega)] at h
        exact absurd hletter.2 (h ▸ hc)
      · exact h.imp_right .inl
      · exact .inr (.inr h)
    rw [← Char.ofNat_toNat c]
    rcases hform with h | h | h <;>
    · rw [h]
      exact ⟨by decide, by decide +kernel⟩

theorem isPlain_lowerChars {before cs : List Char}
    (h : ∀ c ∈ cs, c.toNat ≠ 0x3a3 ∧ Text.IsPlain (Text.lowerChar c)) :
    Text.IsPlain (Text.lowerChars before cs) := by
  induction cs generalizing before with
  | nil => exact List.forall_mem_nil _
  | cons c cs ih =>
      obtain ⟨⟨hsigma, hc⟩, hcs⟩ := List.forall_mem_cons.1 h
      rw [Text.lowerChars, if_neg hsigma]
      exact Text.isPlain_append.2 ⟨hc, ih hcs⟩

theorem isPlain_lower_of_spells {word : String} (hword : word ∈ reservedWords) {cs : List Char}
    (h : Spells word.toList cs) : Text.IsPlain (Text.lower (String.ofList cs)).toList := by
  have hforms : ∀ c ∈ cs, c.toNat ≠ 0x3a3 ∧ Text.IsPlain (Text.lowerChar c) := by
    have hletters := toNat_of_mem_reservedWords hword
    generalize word.toList = letters at h hletters
    induction h with
    | nil => exact List.forall_mem_nil _
    | cons hform _ ih =>
        obtain ⟨hletter, hletters⟩ := List.forall_mem_cons.1 hletters
        exact List.forall_mem_cons.2 ⟨isPlain_lowerChar_of_isForm hletter hform, ih hletters⟩
  unfold Text.lower
  rw [String.toList_ofList]
  split
  · rename_i hascii
    rw [String.toList_ofList]
    intro d hd
    obtain ⟨c, hc, rfl⟩ := List.mem_map.1 hd
    have hlower := (hforms c hc).2
    rw [Text.lowerChar, if_pos (of_decide_eq_true (List.all_eq_true.1 hascii c hc))] at hlower
    exact hlower _ (List.mem_singleton.2 rfl)
  · rw [String.toList_ofList]
    exact isPlain_lowerChars hforms

theorem isPlain_of_isNameChar {c : Char} (h : isNameChar c = true) : c ≠ '\\' ∧ Text.isBrace c = false := by
  rcases Bool.or_eq_true_iff.1 h with h | h
  · exact Text.isPlain_of_isAlphanum h
  · rw [eq_of_beq h]
    decide

theorem IsPlainName.isPlain {cs tail : List Char} (h : IsPlainName cs tail) : Text.IsPlain cs := by
  cases h with
  | anyMore | anything => decide
  | @word dollar body primes _ c hdollar hc hbody hprimes _ _ =>
      have hdollar : Text.IsPlain dollar := by rcases hdollar with rfl | rfl <;> decide
      have hc : c ≠ '\\' ∧ Text.isBrace c = false :=
        isPlain_of_isNameChar (Bool.or_eq_true_iff.2 ((Bool.or_eq_true_iff.1 hc).imp_left fun hc =>
          Bool.or_eq_true_iff.2 (.inl hc)))
      refine Text.isPlain_append.2 ⟨Text.isPlain_append.2 ⟨hdollar, Text.isPlain_cons.2 ⟨hc, fun d hd =>
        isPlain_of_isNameChar (hbody d hd)⟩⟩, fun d hd => ?_⟩
      rw [eq_of_beq (hprimes d hd)]
      decide

theorem IsName.isPlain {hints : List String} {s : String} {cs tail : List Char} (h : IsName hints s cs tail) :
    Text.IsPlain s.toList := by
  induction h with
  | plain hplain =>
      rw [String.toList_ofList]
      exact hplain.isPlain
  | hint _ _ _ ih => exact ih

/-- An operator or a name has neither backslashes nor braces. -/
def HasPlainName : Lexeme → Prop
  | operator s | name _ s _ => Text.IsPlain s.toList
  | _ => True

theorem hasPlainName_of_recognise {cs : List Char} {l : Lexeme} {n : Nat} (h : recognise cs = some (some l, n)) :
    l.HasPlainName := by
  obtain ⟨chunk, tail, -, -, hstands⟩ := stands_of_recognise h
  cases hstands with
  | number | text | boolean | mark => trivial
  | word hword hspells => exact isPlain_lower_of_spells (List.mem_append_right _ hword) hspells
  | sign hsign =>
      have hall : ∀ s ∈ operatorSigns, Text.IsPlain s.toList := by decide +kernel
      exact hall _ (List.mem_of_find?_eq_some hsign)
  | name hname => exact hname.isPlain

end Lexeme

/-! ### Tokens -/

namespace Operator

variable {symbol : String}

theorem isPlain_canonical (h : Text.IsPlain symbol.toList) : Text.IsPlain (canonical symbol).toList := by
  unfold canonical
  split
  all_goals first | exact h | decide

theorem isPlain_of_beforeForm? {form : String} (h : beforeForm? symbol = some form) :
    Text.IsPlain form.toList := by
  unfold beforeForm? at h
  split at h <;> cases h <;> decide

theorem isPlain_of_afterForm? {form : String} (h : afterForm? symbol = some form) : Text.IsPlain form.toList := by
  unfold afterForm? at h
  split at h <;> cases h
  decide

theorem isPlain_ofSymbol (h : Text.IsPlain symbol.toList) (expectsValue : Bool) :
    Text.IsPlain (ofSymbol expectsValue symbol).symbol.toList := by
  unfold ofSymbol
  dsimp only
  split
  · split
    · rename_i hform
      exact isPlain_of_beforeForm? hform
    · exact isPlain_canonical h
  · split
    · rename_i hform
      exact isPlain_of_afterForm? hform
    · exact isPlain_canonical h

theorem isPlain_canonicalFunction {name : String} (h : Text.IsPlain name.toList) (key : String) :
    Text.IsPlain (canonicalFunction name key).toList := by
  unfold canonicalFunction
  split
  all_goals first | exact h | decide

end Operator

/-- The name of an operator or function has neither backslashes nor braces. -/
def Head.IsPlain : Head → Prop
  | op o => Text.IsPlain o.symbol.toList
  | call name => Text.IsPlain name.toList
  | list => True

theorem Head.isPlain_times : Head.IsPlain (.op .times) := by
  show Text.IsPlain "*".toList
  decide

theorem Head.isPlain_index : Head.IsPlain (.call "listval") := by
  show Text.IsPlain "listval".toList
  decide

namespace Value

mutual

/-- Whether the texts in a value pass one test, and the names in it another. -/
def passes (text name : String → Bool) : Value → Bool
  | .text s .. => text s
  | .name s _ => name s
  | list items | set items => allPass text name items
  | _ => true

/-- Whether the texts and names in the values of a list pass their tests. -/
def allPass (text name : String → Bool) : List Value → Bool
  | [] => true
  | v :: vs => passes text name v && allPass text name vs

end

/-- Whether the texts in a value have neither backslashes nor braces. -/
abbrev hasPlainTexts (v : Value) : Bool :=
  v.passes (fun s => decide (Text.IsPlain s.toList)) fun _ => true

/-- Whether the names in a value have neither backslashes nor braces. -/
abbrev hasPlainNames (v : Value) : Bool :=
  v.passes (fun _ => true) fun s => decide (Text.IsPlain s.toList)

end Value

namespace Token

variable {previous : Option Token} {u : Token}

/-- The name of a token, if it has one, has neither backslashes nor braces. -/
def HasPlainName : Token → Prop
  | name s _ | function s => Text.IsPlain s.toList
  | op o => Text.IsPlain o.symbol.toList
  | _ => True

theorem HasPlainName.stands (hu : u.HasPlainName) : u.Stands fun v => v.hasPlainNames = true := by
  cases u with
  | number | text | boolean => rfl
  | name s hints => exact decide_eq_true hu
  | _ => trivial

theorem HasPlainName.heads (hu : u.HasPlainName) : u.Heads Head.IsPlain := by
  cases u with
  | op o => exact hu
  | function s => exact Operator.isPlain_canonicalFunction hu _
  | _ => trivial

theorem hasPlainName_of_mem_withProduct {t : Token} (ht : t.HasPlainName) (h : u ∈ withProduct previous t) :
    u.HasPlainName := by
  rcases mem_withProduct h with rfl | rfl
  · exact Head.isPlain_times
  · exact ht

theorem hasPlainName_of_mem_ofLexeme {l : Lexeme} (hl : l.HasPlainName) (h : u ∈ ofLexeme previous l) :
    u.HasPlainName := by
  cases l with
  | number x => exact hasPlainName_of_mem_withProduct (t := number _) trivial h
  | text | boolean =>
      cases List.mem_singleton.1 h
      trivial
  | operator symbol =>
      cases List.mem_singleton.1 h
      exact Operator.isPlain_ofSymbol hl _
  | name hints s applied =>
      refine hasPlainName_of_mem_withProduct ?_ h
      split
      · exact hl
      · split
        · trivial
        · exact hl
  | mark m =>
      cases m with
      | openRound => exact hasPlainName_of_mem_withProduct (t := mark _) trivial h
      | _ =>
          cases List.mem_singleton.1 h
          trivial

theorem hasPlainName_of_mem_ofSource {source : String} {ts : List Token} (h : ofSource source = .ok ts) (hu : u ∈ ts) :
    u.HasPlainName := by
  obtain ⟨l, rest, n, before, -, hrest, hu⟩ := exists_of_mem_ofSource h hu
  exact hasPlainName_of_mem_ofLexeme (Lexeme.hasPlainName_of_recognise hrest) hu

end Token

/-- Whatever is read from source text has neither backslashes nor braces, but for its texts. -/
theorem Tree.madeOf_of_ofSourceIn {isVariable : String → Bool} {source : String} {t : Tree}
    (h : ofSourceIn isVariable source = .ok (some t)) : t.MadeOf (fun v => v.hasPlainNames = true) Head.IsPlain := by
  unfold ofSourceIn at h
  dsimp only at h
  split at h
  · cases h
  · obtain ⟨ts, hts, htree⟩ := exists_of_bind_eq_ok h
    have hts := eq_ok_of_mapError hts
    have hplain (u : Token) (hu : u ∈ ts) : u.HasPlainName := Token.hasPlainName_of_mem_ofSource hts hu
    exact madeOf_of_ofTokens ⟨trivial, Head.isPlain_index, Head.isPlain_times⟩
      (fun u hu => ⟨(hplain u hu).stands, (hplain u hu).heads⟩)
      (fun name hname _ => decide_eq_true (hplain (.function name) hname)) htree

end MathExpr
