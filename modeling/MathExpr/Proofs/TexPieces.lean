import MathExpr.Display.Tex
import MathExpr.Proofs.NumberTexts

/-!
# What TeX opens and closes

A TeX text opens and closes groups by braces, braces that are printed by braces behind a backslash, fences by
`\left` and `\right`, and matrices by `\begin` and `\end` with their name (`Tex.scan`). It is well bracketed if
whatever closes has been opened last (`Tex.WellBracketed`). The braces of all kinds have to be so among each other,
and all but the printed braces: a fence may be such a brace, which is then opened behind `\left` and closed behind
`\right`.

Texts are put together from parts that can be read on their own (`Tex.Reads`), whatever stands behind them. A
control word would go on with a letter behind it, but none of those that fences and matrices are written with
begins with one of the others (`Tex.scan_word`). So the texts that fit together (`Tex.Fits`) are closed under
putting one behind another and under putting one between what opens and what closes.
-/

namespace MathExpr.Tex

/-! ### Reading -/

/-- What is opened and closed. -/
inductive Delimiter where
  | group
  | brace
  | fence
  | matrix
  deriving DecidableEq, Repr

/-- A piece of text that opens or closes something. -/
inductive Piece where
  | opens (d : Delimiter)
  | closes (d : Delimiter)
  deriving DecidableEq, Repr

/-- What a piece opens or closes. -/
def Piece.delimiter : Piece → Delimiter
  | opens d | closes d => d

/-- What the next character is read as: as itself, as one behind a backslash, or as one behind a backslash and
some letters. -/
inductive Position where
  | plain
  | escaped
  | word (letters : List Char)

/-- The pieces of a character that stands for itself, and what the next character is read as. -/
def ofChar : Char → List Piece × Position
  | '\x7b' => ([.opens .group], .plain)
  | '\x7d' => ([.closes .group], .plain)
  | '\\' => ([], .escaped)
  | _ => ([], .plain)

/-- The pieces of a character behind a backslash. -/
def ofEscaped : Char → List Piece
  | '\x7b' => [.opens .brace]
  | '\x7d' => [.closes .brace]
  | _ => []

/-- The pieces of a control word, given the text behind it. -/
def ofWord (letters rest : List Char) : List Piece :=
  if letters = "left".toList then [.opens .fence]
  else if letters = "right".toList then [.closes .fence]
  else if letters = "begin".toList ∧ "\x7bpmatrix\x7d".toList <+: rest then [.opens .matrix]
  else if letters = "end".toList ∧ "\x7bpmatrix\x7d".toList <+: rest then [.closes .matrix]
  else []

/-- The pieces of a TeX text. A control word goes on as long as letters follow. -/
def scan : Position → List Char → List Piece
  | .word letters, [] => ofWord letters []
  | .plain, [] | .escaped, [] => []
  | .plain, c :: cs => (ofChar c).1 ++ scan (ofChar c).2 cs
  | .escaped, c :: cs => if c.isAlpha then scan (.word [c]) cs else ofEscaped c ++ scan .plain cs
  | .word letters, c :: cs =>
    if c.isAlpha then scan (.word (letters ++ [c])) cs
    else ofWord letters (c :: cs) ++ (ofChar c).1 ++ scan (ofChar c).2 cs

/-! ### Balance -/

/-- Whether each piece that closes something closes what has been opened last, and all that has been opened is
closed; `pending` has been opened before, the last first. -/
def closesAll : List Delimiter → List Piece → Bool
  | pending, [] => pending.isEmpty
  | pending, .opens d :: ps => closesAll (d :: pending) ps
  | d :: pending, .closes d' :: ps => decide (d = d') && closesAll pending ps
  | [], .closes _ :: _ => false

/-- The pieces of some kinds are balanced and nested. -/
abbrev IsNested (p : Delimiter → Bool) (ps : List Piece) : Prop :=
  closesAll [] (ps.filter fun x => p x.delimiter) = true

/-- Braces of either kind. -/
def isBrace (d : Delimiter) : Bool := d = .group || d = .brace

/-- All that is not printed. -/
def isStructure (d : Delimiter) : Bool := d ≠ .brace

/-- Braces are balanced and nested, and so are groups, fences and matrices. -/
structure Balanced (ps : List Piece) : Prop where
  braces : IsNested isBrace ps
  fences : IsNested isStructure ps

instance (ps : List Piece) : Decidable (Balanced ps) :=
  decidable_of_iff (IsNested isBrace ps ∧ IsNested isStructure ps)
    ⟨fun h => ⟨h.1, h.2⟩, fun h => ⟨h.braces, h.fences⟩⟩

/-- A TeX text closes what it opens. -/
def WellBracketed (s : String) : Prop := Balanced (scan .plain s.toList)

instance (s : String) : Decidable (WellBracketed s) :=
  inferInstanceAs (Decidable (Balanced _))

/-- A fence that closes outside of its group. -/
example : ¬WellBracketed "\x7b \\left ( x \x7d \\right )" := by decide

/-- Pieces that close all do so whatever has been opened before and whatever follows. -/
theorem closesAll_append {pending : List Delimiter} {ps : List Piece} (h : closesAll pending ps = true)
    (before : List Delimiter) (qs : List Piece) :
    closesAll (pending ++ before) (ps ++ qs) = closesAll before qs := by
  fun_induction closesAll pending ps with
  | case1 pending =>
      rw [List.isEmpty_iff.1 h]
      rfl
  | case2 pending d ps ih => exact ih h
  | case3 d pending d' ps ih =>
      obtain ⟨hd, h⟩ := Bool.and_eq_true_iff.1 h
      rw [← ih h, ← Bool.true_and (closesAll (pending ++ before) _), ← hd]
      rfl
  | case4 => cases h

theorem IsNested.append {p : Delimiter → Bool} {ps qs : List Piece} (hps : IsNested p ps) (hqs : IsNested p qs) :
    IsNested p (ps ++ qs) := by
  unfold IsNested
  rw [List.filter_append]
  exact (closesAll_append hps [] _).trans hqs

theorem IsNested.enclose {p : Delimiter → Bool} {ps : List Piece} (h : IsNested p ps) (d : Delimiter) :
    IsNested p (.opens d :: ps ++ [.closes d]) := by
  unfold IsNested
  rw [List.filter_append, List.filter_cons, List.filter_cons, List.filter_nil]
  show closesAll [] ((if p d then _ else _) ++ if p d then _ else _) = true
  by_cases hd : p d = true
  · rw [if_pos hd, if_pos hd]
    have hclose : closesAll [d] [.closes d] = true := by simp [closesAll]
    exact (closesAll_append h [d] _).trans hclose
  · rw [if_neg hd, if_neg hd, List.append_nil]
    exact h

theorem balanced_nil : Balanced [] := ⟨rfl, rfl⟩

theorem Balanced.append {ps qs : List Piece} (hps : Balanced ps) (hqs : Balanced qs) : Balanced (ps ++ qs) :=
  ⟨hps.braces.append hqs.braces, hps.fences.append hqs.fences⟩

theorem Balanced.enclose {ps : List Piece} (h : Balanced ps) (d : Delimiter) :
    Balanced (.opens d :: ps ++ [.closes d]) :=
  ⟨h.braces.enclose d, h.fences.enclose d⟩

/-- A fence may be a brace, which closes behind it. -/
theorem Balanced.enclose_fence {ps : List Piece} (h : Balanced ps) :
    Balanced (.opens .fence :: .opens .brace :: ps ++ [.closes .fence, .closes .brace]) := by
  constructor
  · have hbraces := h.braces.enclose .brace
    unfold IsNested at hbraces ⊢
    rw [List.filter_append] at hbraces ⊢
    exact hbraces
  · have hfences := h.fences.enclose .fence
    unfold IsNested at hfences ⊢
    rw [List.filter_append] at hfences ⊢
    exact hfences

/-! ### Control words -/

/-- The letters do not begin a control word that opens or closes something. -/
abbrev IsHarmless (letters : List Char) : Prop :=
  ∀ word ∈ ["left", "right", "begin", "end"], ¬letters <+: word.toList

theorem ofWord_of_isHarmless {letters : List Char} (h : IsHarmless letters) (rest : List Char) :
    ofWord letters rest = [] := by
  have hne (word : String) (hword : word ∈ ["left", "right", "begin", "end"]) : letters ≠ word.toList := by
    rintro rfl
    exact h word hword List.prefix_rfl
  unfold ofWord
  rw [if_neg (hne "left" (by decide)), if_neg (hne "right" (by decide)), if_neg fun h => hne "begin" (by decide) h.1,
    if_neg fun h => hne "end" (by decide) h.1]

theorem ofChar_of_isPlain {c : Char} (hslash : c ≠ '\\') (hbrace : Text.isBrace c = false) :
    ofChar c = ([], .plain) := by
  obtain ⟨hopen, hclose⟩ := Text.ne_of_isBrace_eq_false hbrace
  unfold ofChar
  split
  · exact absurd rfl hopen
  · exact absurd rfl hclose
  · exact absurd rfl hslash
  · rfl

theorem ofChar_of_isAlpha {c : Char} (h : c.isAlpha = true) : ofChar c = ([], .plain) :=
  ofChar_of_isPlain (Text.isPlain_of_isAlpha h).1 (Text.isPlain_of_isAlpha h).2

/-- Behind a harmless control word the text is read as if it were not there. -/
theorem scan_word {letters : List Char} (h : IsHarmless letters) (rest : List Char) :
    scan (.word letters) rest = scan .plain rest := by
  induction rest generalizing letters with
  | nil => exact ofWord_of_isHarmless h []
  | cons c rest ih =>
      rw [scan, scan]
      by_cases hc : c.isAlpha = true
      · have hlonger : IsHarmless (letters ++ [c]) := fun word hword hprefix =>
          h word hword ((List.prefix_append letters [c]).trans hprefix)
        rw [if_pos hc, ih hlonger, ofChar_of_isAlpha hc]
        rfl
      · rw [if_neg hc, ofWord_of_isHarmless h]
        rfl

theorem scan_word_append {letters more : List Char} (h : ∀ c ∈ more, c.isAlpha = true) (rest : List Char) :
    scan (.word letters) (more ++ rest) = scan (.word (letters ++ more)) rest := by
  induction more generalizing letters with
  | nil => rw [List.nil_append, List.append_nil]
  | cons c more ih =>
      obtain ⟨hc, hmore⟩ := List.forall_mem_cons.1 h
      rw [List.cons_append, scan, if_pos hc, ih hmore, List.append_assoc]
      rfl

/-! ### Texts that can be put together -/

/-- A text has some pieces, whatever follows it. -/
def Reads (s : String) (ps : List Piece) : Prop :=
  ∀ rest, scan .plain (s.toList ++ rest) = ps ++ scan .plain rest

theorem Reads.append {s t : String} {ps qs : List Piece} (hs : Reads s ps) (ht : Reads t qs) :
    Reads (s ++ t) (ps ++ qs) := by
  intro rest
  rw [String.toList_append, List.append_assoc, hs, ht, List.append_assoc]

theorem reads_of_isPlain {s : String} (h : Text.IsPlain s.toList) : Reads s [] := by
  intro rest
  generalize s.toList = cs at h
  induction cs with
  | nil => rfl
  | cons c cs ih =>
      obtain ⟨hslash, hbrace, hcs⟩ := h.of_cons
      rw [List.cons_append, scan, ofChar_of_isPlain hslash hbrace, ih hcs]
      rfl

/-- A control word that opens and closes nothing. -/
abbrev IsCommand (word : String) : Prop :=
  word.toList ≠ [] ∧ word.toList.all Char.isAlpha = true ∧ IsHarmless word.toList

theorem reads_command {word : String} (h : IsCommand word) : Reads ("\\" ++ word) [] := by
  intro rest
  obtain ⟨hne, halpha, h⟩ := h
  rw [String.toList_append, List.append_assoc]
  show scan .escaped (word.toList ++ rest) = _
  cases hword : word.toList with
  | nil => exact absurd hword hne
  | cons c cs =>
      rw [hword] at halpha h
      obtain ⟨hc, hcs⟩ := List.forall_mem_cons.1 (List.all_eq_true.1 halpha)
      rw [List.cons_append, scan, if_pos hc, scan_word_append hcs, List.singleton_append, scan_word h]
      rfl

/-- A text fits if it closes what it opens, whatever stands around it. -/
def Fits (s : String) : Prop := ∃ ps, Reads s ps ∧ Balanced ps

theorem Fits.wellBracketed {s : String} (h : Fits s) : WellBracketed s := by
  obtain ⟨ps, hs, hps⟩ := h
  have hscan := hs []
  rw [List.append_nil, scan, List.append_nil] at hscan
  unfold WellBracketed
  rwa [hscan]

theorem Reads.fits {s : String} (h : Reads s []) : Fits s := ⟨[], h, balanced_nil⟩

theorem fits_of_isPlain {s : String} (h : Text.IsPlain s.toList) : Fits s := (reads_of_isPlain h).fits

theorem Fits.append {s t : String} (hs : Fits s) (ht : Fits t) : Fits (s ++ t) := by
  obtain ⟨ps, hs, hps⟩ := hs
  obtain ⟨qs, ht, hqs⟩ := ht
  exact ⟨ps ++ qs, hs.append ht, hps.append hqs⟩

/-- A text between what opens and what closes something. -/
theorem Fits.enclose {s before after : String} {d : Delimiter} (h : Fits s) (hbefore : Reads before [.opens d])
    (hafter : Reads after [.closes d]) : Fits (before ++ s ++ after) := by
  obtain ⟨ps, hs, hps⟩ := h
  exact ⟨_, (hbefore.append hs).append hafter, hps.enclose d⟩

theorem fits_intercalate {separator : String} (hseparator : Fits separator) {texts : List String}
    (htexts : ∀ s ∈ texts, Fits s) : Fits (separator.intercalate texts) := by
  induction texts with
  | nil =>
      rw [String.intercalate_nil]
      exact fits_of_isPlain (by decide)
  | cons s texts ih =>
      obtain ⟨hs, htexts⟩ := List.forall_mem_cons.1 htexts
      cases texts with
      | nil =>
          rw [String.intercalate_singleton]
          exact hs
      | cons t texts =>
          rw [String.intercalate_cons_cons]
          exact (hs.append hseparator).append (ih htexts)

/-! ### Texts by their characters -/

theorem Fits.ofList_append {cs ds : List Char} (hcs : Fits (String.ofList cs)) (hds : Fits (String.ofList ds)) :
    Fits (String.ofList (cs ++ ds)) := by
  rw [String.ofList_append]
  exact hcs.append hds

theorem fits_ofList_of_isPlain {cs : List Char} (h : Text.IsPlain cs) : Fits (String.ofList cs) :=
  fits_of_isPlain (by rwa [String.toList_ofList])

theorem Fits.cons {c : Char} {cs : List Char} (hc : c ≠ '\\' ∧ Text.isBrace c = false)
    (h : Fits (String.ofList cs)) : Fits (String.ofList (c :: cs)) :=
  (fits_ofList_of_isPlain (List.forall_mem_singleton.2 hc)).ofList_append h

theorem fits_flatMap {f : Char → List Char} {cs : List Char} (h : ∀ c ∈ cs, Fits (String.ofList (f c))) :
    Fits (String.ofList (cs.flatMap f)) := by
  induction cs with
  | nil => exact fits_ofList_of_isPlain (List.forall_mem_nil _)
  | cons c cs ih =>
      obtain ⟨hc, hcs⟩ := List.forall_mem_cons.1 h
      exact hc.ofList_append (ih hcs)

end MathExpr.Tex
