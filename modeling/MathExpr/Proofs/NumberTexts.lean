import MathExpr.Number.Written
import MathExpr.Proofs.InsertedTexts
import MathExpr.Proofs.Outcome

/-!
# Characters of written numbers

A real number is written with digits, a sign, a point and the name and powers of pi, or by a word. None of them
is a backslash or a brace, whatever the settings ask for (`Number.isPlain_writtenReal`).
-/

namespace MathExpr

namespace Text

variable {cs ds : List Char}

theorem isPlain_append : IsPlain (cs ++ ds) ↔ IsPlain cs ∧ IsPlain ds := List.forall_mem_append

theorem isPlain_cons {c : Char} : IsPlain (c :: cs) ↔ (c ≠ '\\' ∧ isBrace c = false) ∧ IsPlain cs :=
  List.forall_mem_cons

theorem IsPlain.of_sublist (h : IsPlain ds) (hcs : cs.Sublist ds) : IsPlain cs := fun c hc => h c (hcs.subset hc)

theorem isPlain_of_isAlphanum {c : Char} (h : c.isAlphanum = true) : c ≠ '\\' ∧ isBrace c = false := by
  constructor
  · rintro rfl
    exact absurd h (by decide)
  · refine Bool.eq_false_iff.2 fun hc => ?_
    rcases Bool.or_eq_true_iff.1 hc with hc | hc <;>
    · rw [eq_of_beq hc] at h
      exact absurd h (by decide)

theorem isPlain_of_isAlpha {c : Char} (h : c.isAlpha = true) : c ≠ '\\' ∧ isBrace c = false :=
  isPlain_of_isAlphanum (Bool.or_eq_true_iff.2 (.inl h))

theorem isPlain_replicate {c : Char} (h : c ≠ '\\' ∧ isBrace c = false) (n : Nat) :
    IsPlain (List.replicate n c) := by
  intro d hd
  rw [List.eq_of_mem_replicate hd]
  exact h

theorem isPlain_of_isDigit (h : ∀ c ∈ cs, c.isDigit = true) : IsPlain cs := fun c hc =>
  isPlain_of_isAlphanum (Bool.or_eq_true_iff.2 (.inr (h c hc)))

theorem isPlain_toDigits (n : Nat) : IsPlain (Nat.toDigits 10 n) :=
  isPlain_of_isDigit fun _ hc => Nat.isDigit_of_mem_toDigits (by decide) (by decide) hc

theorem isPlain_toString (n : Nat) : IsPlain (toString n).toList := by
  rw [Nat.toString_eq_repr, Nat.repr_eq_ofList_toDigits, String.toList_ofList]
  exact isPlain_toDigits n

theorem isPlain_toString_int (n : Int) : IsPlain (toString n).toList := by
  rw [Int.toString_eq_repr, Int.repr_eq_if]
  split
  · exact isPlain_toString n.toNat
  · rw [String.toList_append]
    exact isPlain_append.2 ⟨by decide, isPlain_toString (-n).toNat⟩

end Text

namespace Real

theorem isPlain_positional {digits : List Char} (h : Text.IsPlain digits) (exponent : Int) :
    Text.IsPlain (positional digits exponent) := by
  have hzeros (n : Nat) : Text.IsPlain (List.replicate n '0') := Text.isPlain_replicate (by decide) n
  unfold positional
  split
  · exact Text.isPlain_append.2 ⟨h, hzeros _⟩
  · dsimp only
    split
    · exact Text.isPlain_append.2 ⟨h.of_sublist (List.take_sublist _ _),
        Text.isPlain_cons.2 ⟨by decide, h.of_sublist (List.drop_sublist _ _)⟩⟩
    · exact Text.isPlain_append.2
        ⟨Text.isPlain_cons.2 ⟨by decide, Text.isPlain_cons.2 ⟨by decide, hzeros _⟩⟩, h⟩

theorem isPlain_plainText (x : Float) : Text.IsPlain (plainText x).toList := by
  unfold plainText Style.write
  split
  · decide
  · split <;> decide
  · rename_i negative m e _
    split
    · split <;> decide
    · have hdigits := isPlain_positional (Text.isPlain_toDigits (Decimal.shortest m e).coefficient.natAbs)
        (Decimal.shortest m e).exponent
      dsimp only
      rw [String.toList_ofList]
      split
      · exact Text.isPlain_cons.2 ⟨by decide, hdigits⟩
      · exact hdigits

end Real

namespace Number

theorem isPlain_addZeros {text : List Char} (h : Text.IsPlain text) (missing : Int) :
    Text.IsPlain (addZeros text missing) := by
  unfold addZeros
  split
  · exact h
  · refine Text.isPlain_append.2 ⟨?_, Text.isPlain_replicate (by decide) _⟩
    split
    · exact h
    · exact Text.isPlain_append.2 ⟨h, by decide⟩

theorem isPlain_padPlaces {text : List Char} (h : Text.IsPlain text) (places : Int) :
    Text.IsPlain (padPlaces text places) :=
  isPlain_addZeros h _

theorem isPlain_padFigures {text : List Char} (h : Text.IsPlain text) (figures : Int) :
    Text.IsPlain (padFigures text figures) := by
  unfold padFigures
  split
  · exact isPlain_padPlaces h _
  · exact isPlain_addZeros h _

theorem isPlain_writtenDecimal {x value : Float} {text : String} (h : writtenDecimal x = .ok (text, value)) :
    Text.IsPlain text.toList := by
  unfold writtenDecimal at h
  split at h
  · cases h
    decide
  · split at h
    · cases h
      exact Real.isPlain_plainText x
    · obtain ⟨rounded, -, hdone⟩ := exists_of_bind_eq_ok h
      cases hdone
      exact Real.isPlain_plainText _

theorem isPlain_piPower (degree : Nat) : Text.IsPlain (piPower degree).toList := by
  unfold piPower
  split
  · decide
  · rw [String.toList_append]
    exact Text.isPlain_append.2 ⟨by decide, Text.isPlain_toString degree⟩

theorem isPlain_writtenPlain {settings : Settings} {degree : Nat} {x : Float} {text : String}
    (h : writtenPlain settings degree x = .ok text) : Text.IsPlain text.toList := by
  have hpower := isPlain_piPower degree
  obtain ⟨⟨digits, value⟩, hdigits, h⟩ := exists_of_bind_eq_ok h
  have hdigits := isPlain_writtenDecimal hdigits
  dsimp only at h
  split at h
  · cases h
    exact Real.isPlain_plainText x
  · split at h
    · cases h
      exact hdigits
    · split at h
      · cases h
        exact hpower
      · split at h <;> cases h
        · rw [String.toList_append]
          exact Text.isPlain_append.2 ⟨by decide, hpower⟩
        · rw [String.toList_append, String.toList_append]
          exact Text.isPlain_append.2 ⟨Text.isPlain_append.2 ⟨hdigits, by decide⟩, hpower⟩

/-- A written number has neither backslashes nor braces. -/
theorem isPlain_writtenReal {settings : Settings} {x : Float} {text : String}
    (h : writtenReal settings x = .ok text) : Text.IsPlain text.toList := by
  unfold writtenReal at h
  split at h
  · cases h
    decide
  split at h
  · cases h
    decide
  split at h
  · cases h
    decide
  split at h
  · obtain ⟨places, -, h⟩ := exists_of_bind_eq_ok h
    obtain ⟨rounded, -, h⟩ := exists_of_bind_eq_ok h
    cases h
    rw [String.toList_ofList]
    exact isPlain_padFigures (Real.isPlain_plainText _) places
  · obtain ⟨places, -, h⟩ := exists_of_bind_eq_ok h
    obtain ⟨rounded, -, h⟩ := exists_of_bind_eq_ok h
    cases h
    rw [String.toList_ofList]
    exact isPlain_padPlaces (Real.isPlain_plainText _) places
  · exact isPlain_writtenPlain h
  · exact isPlain_writtenPlain h
  · exact isPlain_writtenPlain h

end Number

end MathExpr
