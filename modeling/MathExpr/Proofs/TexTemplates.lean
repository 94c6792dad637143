import MathExpr.Proofs.TexPieces

/-!
# Templates of TeX

Numbers, names, operators and functions close what they open, whatever closed texts they are made of. A name does
so with any hints (`Tex.fits_name`), and a function whatever its template (`Tex.fits_call`).
-/

namespace MathExpr.Tex

variable {s t : String} {texts : List String}

/-! ### Pieces of templates -/

theorem fits_word (word : String) (hword : IsCommand word) : Fits ("\\" ++ word) := (reads_command hword).fits

theorem fits_braced (h : Fits s) : Fits (braced s) :=
  h.enclose (fun _ => rfl) (fun _ => rfl)

theorem fits_spaced (h : Fits s) : Fits (spaced s) :=
  fits_braced (((fits_of_isPlain (by decide)).append h).append (fits_of_isPlain (by decide)))

theorem fits_command {word : String} (hword : IsCommand word) (h : Fits s) : Fits (command word s) :=
  (fits_word word hword).append (fits_braced h)

theorem fits_brackets (h : Fits s) : Fits (brackets s) :=
  h.enclose (fun _ => rfl) (fun _ => rfl)

theorem fits_brackets_if {p : Prop} [Decidable p] (h : Fits s) : Fits (if p then brackets s else s) := by
  split
  · exact fits_brackets h
  · exact h

theorem fits_commas (h : ∀ s ∈ texts, Fits s) : Fits (", ".intercalate texts) :=
  fits_intercalate (fits_of_isPlain (by decide)) h

theorem fits_square (h : ∀ s ∈ texts, Fits s) : Fits (square texts) :=
  (fits_commas h).enclose (fun _ => rfl) (fun _ => rfl)

theorem fits_setBraces (h : ∀ s ∈ texts, Fits s) : Fits (setBraces texts) := by
  obtain ⟨ps, hs, hps⟩ := fits_commas h
  have hbefore : Reads "\\left\\\x7b " [.opens .fence, .opens .brace] := fun _ => rfl
  have hafter : Reads " \\right\\\x7d" [.closes .fence, .closes .brace] := fun _ => rfl
  exact ⟨_, (hbefore.append hs).append hafter, hps.enclose_fence⟩

theorem fits_pmatrix (h : ∀ s ∈ texts, Fits s) : Fits (pmatrix texts) := by
  have hrows : Fits (" \\\\ ".intercalate texts) := fits_intercalate (Reads.fits fun _ => rfl) h
  obtain ⟨ps, hs, hps⟩ := hrows
  -- The name of the matrix is a group of its own behind each of its ends.
  have hname : Balanced [.opens .group, .closes .group] := balanced_nil.enclose .group
  have hbefore : Reads ("\\begin" ++ braced "pmatrix" ++ " ") [.opens .matrix, .opens .group, .closes .group] :=
    fun _ => rfl
  have hafter : Reads (" \\end" ++ braced "pmatrix") [.closes .matrix, .opens .group, .closes .group] :=
    fun _ => rfl
  have hassoc : pmatrix texts =
      "\\begin" ++ braced "pmatrix" ++ " " ++ " \\\\ ".intercalate texts ++ (" \\end" ++ braced "pmatrix") :=
    String.append_assoc
  rw [hassoc]
  refine ⟨_, (hbefore.append hs).append hafter, ?_⟩
  have hall := ((hname.append hps).enclose .matrix).append hname
  simpa using hall

theorem fits_vector (settings : Settings) (h : ∀ s ∈ texts, Fits s) : Fits (vector settings texts) := by
  unfold vector
  refine fits_pmatrix ?_
  split
  · intro s hs
    rw [List.mem_singleton.1 hs]
    exact fits_intercalate (fits_of_isPlain (by decide)) h
  · exact h

theorem fits_matrix {rows : List (List String)} (h : ∀ row ∈ rows, ∀ s ∈ row, Fits s) : Fits (matrix rows) := by
  refine fits_pmatrix fun s hs => ?_
  obtain ⟨row, hrow, rfl⟩ := List.mem_map.1 hs
  exact fits_intercalate (fits_of_isPlain (by decide)) (h row hrow)

/-! ### Numbers -/

/-- The name of pi opens and closes as much as its command. -/
theorem scan_piCommand {cs : List Char} (h : '\\' ∉ cs) (rest : List Char) :
    scan .plain (piCommand cs ++ rest) = scan .plain (cs ++ rest) := by
  fun_induction piCommand cs with
  | case1 cs ih =>
      have hword : scan (.word ['p', 'i']) (piCommand cs ++ rest) = scan .plain (piCommand cs ++ rest) :=
        scan_word (by decide) _
      rw [ih fun hcs => h (List.mem_cons_of_mem _ (List.mem_cons_of_mem _ hcs))] at hword
      exact hword
  | case2 c cs _ ih =>
      have hplain : (ofChar c).2 = .plain := by
        unfold ofChar
        split
        · rfl
        · rfl
        · exact absurd List.mem_cons_self h
        · rfl
      rw [List.cons_append, List.cons_append, scan, scan, hplain, ih fun hcs => h (List.mem_cons_of_mem _ hcs)]
  | case3 => rfl

/-- A text without its sign. -/
theorem Fits.of_minus {cs : List Char} (h : Fits (String.ofList ('-' :: cs))) : Fits (String.ofList cs) := by
  obtain ⟨ps, hread, hps⟩ := h
  refine ⟨ps, fun rest => ?_, hps⟩
  have hrest := hread rest
  rw [String.toList_ofList] at hrest ⊢
  exact hrest

theorem fits_braceExponents {cs : List Char} (h : Text.IsPlain cs) : Fits (String.ofList (braceExponents cs)) := by
  fun_induction braceExponents cs with
  | case1 rest digits hempty ih =>
      obtain ⟨hslash, hbrace, hrest⟩ := h.of_cons
      exact (ih hrest).cons ⟨hslash, hbrace⟩
  | case2 rest digits hdigits ih =>
      obtain ⟨hslash, hbrace, hrest⟩ := h.of_cons
      have hexponent : Fits (braced (String.ofList digits)) :=
        fits_braced (fits_ofList_of_isPlain (hrest.of_sublist (List.takeWhile_sublist _)))
      have happend : String.ofList ('\x7b' :: digits ++ '\x7d' :: braceExponents (rest.drop digits.length)) =
          braced (String.ofList digits) ++ String.ofList (braceExponents (rest.drop digits.length)) := by
        apply String.toList_injective
        simp [braced]
      refine Fits.cons ⟨hslash, hbrace⟩ ?_
      show Fits (String.ofList ('\x7b' :: digits ++ '\x7d' :: braceExponents (rest.drop digits.length)))
      rw [happend]
      exact hexponent.append (ih (hrest.of_sublist (List.drop_sublist _ _)))
  | case3 c rest hc ih =>
      obtain ⟨hslash, hbrace, hrest⟩ := h.of_cons
      exact (ih hrest).cons ⟨hslash, hbrace⟩
  | case4 => exact fits_of_isPlain (by decide)

theorem mem_braceExponents {c : Char} {cs : List Char} (h : c ∈ braceExponents cs) :
    c ∈ cs ∨ Text.isBrace c = true := by
  fun_induction braceExponents cs with
  | case1 rest digits hempty ih =>
      rcases List.mem_cons.1 h with rfl | h
      · exact .inl List.mem_cons_self
      · exact (ih h).imp_left (List.mem_cons_of_mem _)
  | case2 rest digits hdigits ih =>
      rcases List.mem_cons.1 h with rfl | h
      · exact .inl List.mem_cons_self
      rcases List.mem_cons.1 h with rfl | h
      · exact .inr rfl
      rcases List.mem_append.1 h with h | h
      · exact .inl (List.mem_cons_of_mem _ ((List.takeWhile_sublist _).subset h))
      rcases List.mem_cons.1 h with rfl | h
      · exact .inr rfl
      · exact (ih h).imp_left fun h => List.mem_cons_of_mem _ (List.mem_of_mem_drop h)
  | case3 c rest hc ih =>
      rcases List.mem_cons.1 h with rfl | h
      · exact .inl List.mem_cons_self
      · exact (ih h).imp_left (List.mem_cons_of_mem _)
  | case4 => cases h

theorem fits_ofWritten {text : String} (h : Text.IsPlain text.toList) : Fits (ofWritten text) := by
  -- The braces around exponents come first, and only then is the text no longer without backslashes.
  obtain ⟨ps, hread, hps⟩ := fits_braceExponents h
  have hslash : '\\' ∉ braceExponents text.toList := fun hmem =>
    (mem_braceExponents hmem).elim (fun hmem => (h _ hmem).1 rfl) (by decide)
  refine ⟨ps, fun rest => ?_, hps⟩
  have hrest := hread rest
  rw [String.toList_ofList] at hrest
  unfold ofWritten
  rw [String.toList_ofList, scan_piCommand hslash, hrest]

/-- A real number closes what it opens, as a fraction or as it is written. -/
theorem fits_real {settings : Settings} {x : Float} {text : String} (h : real settings x = .ok text) :
    Fits text := by
  have hwritten {text : String} (h : (do return ofWritten (← Number.writtenReal settings x)) = Except.ok text) :
      Fits text := by
    obtain ⟨written, hwritten, h⟩ := exists_of_bind_eq_ok h
    cases h
    exact fits_ofWritten (Number.isPlain_writtenReal hwritten)
  unfold real at h
  split at h
  · cases h
    exact fits_command (by decide) (fits_of_isPlain (by decide))
  split at h
  · cases h
    split
    · exact fits_word "infty" (by decide)
    · exact (fits_of_isPlain (s := "-") (by decide)).append (fits_word "infty" (by decide))
  split at h
  · obtain ⟨⟨n, d⟩, -, h⟩ := exists_of_bind_eq_ok h
    dsimp only at h
    split at h
    · cases h
      have hsign : Fits (if n < 0 then "-" else "") := by split <;> exact fits_of_isPlain (by decide)
      have hnumerator := fits_braced (fits_of_isPlain (Text.isPlain_toString n.natAbs))
      have hdenominator := fits_braced (fits_of_isPlain (Text.isPlain_toString_int d))
      exact ((hsign.append (fits_word "frac" (by decide))).append hnumerator).append hdenominator
    · exact hwritten h
  · exact hwritten h

theorem fits_number {settings : Settings} {n : Number} {text : String} (h : number settings n = .ok text) :
    Fits text := by
  cases n with
  | real x => exact fits_real h
  | complex z =>
      rw [number] at h
      extract_lets sum at h
      -- The real part stands before an imaginary part of any form, which brings its sign.
      have hsum {im : String} (him : Fits im) (h : sum im = .ok text) : Fits text := by
        unfold sum at h
        split at h
        · cases h
          exact him
        obtain ⟨re, hre, h⟩ := exists_of_bind_eq_ok h
        have hre := fits_real hre
        split at h
        · rename_i rest hminus
          cases h
          refine (hre.append (fits_of_isPlain (by decide))).append (Fits.of_minus ?_)
          rwa [← hminus, String.ofList_toList]
        · cases h
          exact (hre.append (fits_of_isPlain (by decide))).append him
      split at h
      · exact fits_real h
      split at h
      · exact hsum (fits_of_isPlain (s := "i") (by decide)) h
      split at h
      · exact hsum (fits_of_isPlain (s := "-i") (by decide)) h
      · obtain ⟨im, him, h⟩ := exists_of_bind_eq_ok h
        exact hsum ((fits_real him).append (fits_of_isPlain (s := " i") (by decide))) h

/-! ### Names -/

theorem isCommand_of_mem_greek : ∀ word ∈ greek, IsCommand word := by decide

theorem fits_stem {cs : List Char} (h : Fits (String.ofList cs)) : Fits (stem cs) := by
  unfold stem
  dsimp only
  split
  · rename_i hgreek
    exact fits_word _ (isCommand_of_mem_greek _ (List.contains_iff_mem.1 hgreek))
  split
  · exact fits_command (by decide) h
  · exact h

theorem isPlain_of_indexed? {part letters digits : List Char} (h : indexed? part = some (letters, digits)) :
    Text.IsPlain letters ∧ Text.IsPlain digits := by
  unfold indexed? at h
  dsimp only at h
  split at h
  · rename_i hparts
    cases h
    have hletters := List.all_eq_true.1 (List.all_takeWhile (p := Char.isAlpha) (l := part))
    have hdigits := List.all_eq_true.1 (Bool.and_eq_true_iff.1 hparts).2
    exact ⟨fun c hc => Text.isPlain_of_isAlpha (hletters c hc), Text.isPlain_of_isDigit hdigits⟩
  · cases h

theorem fits_ofParts {parts : List (List Char)} (h : ∀ part ∈ parts, Fits (String.ofList part)) :
    Fits (ofParts parts) := by
  have hindex {letters digits part : List Char} (hindexed : indexed? part = some (letters, digits)) :
      Fits (stem letters ++ "_" ++ braced (stem digits)) := by
    obtain ⟨hletters, hdigits⟩ := isPlain_of_indexed? hindexed
    have hstem {cs : List Char} (hcs : Text.IsPlain cs) : Fits (stem cs) := fits_stem (fits_ofList_of_isPlain hcs)
    exact ((hstem hletters).append (fits_of_isPlain (by decide))).append (fits_braced (hstem hdigits))
  fun_induction ofParts parts with
  | case1 => exact fits_of_isPlain (by decide)
  | case2 part letters digits hindexed => exact hindex hindexed
  | case3 part => exact fits_stem (h part List.mem_cons_self)
  | case4 part letters digits hindexed => exact hindex hindexed
  | case5 part => exact fits_stem (h part List.mem_cons_self)
  | case6 part rest _ _ ih =>
      obtain ⟨hpart, hrest⟩ := List.forall_mem_cons.1 h
      exact ((fits_stem hpart).append (fits_of_isPlain (by decide))).append (fits_braced (ih hrest))

/-- A dollar sign with any number of backslashes opens and closes nothing. -/
theorem scan_dollar (depth : Nat) (rest : List Char) :
    scan .plain (List.replicate depth '\\' ++ '$' :: rest) = scan .plain rest ∧
      scan .escaped (List.replicate depth '\\' ++ '$' :: rest) = scan .plain rest := by
  induction depth with
  | zero => exact ⟨rfl, rfl⟩
  | succ depth ih => exact ⟨ih.2, ih.1⟩

theorem fits_escapeDollars {cs : List Char} (h : Text.IsPlain cs) (depth : Nat) :
    Fits (String.ofList (escapeDollars depth cs)) := by
  refine fits_flatMap fun c hc => ?_
  split
  · refine Reads.fits fun rest => ?_
    rw [String.toList_ofList, List.append_assoc]
    exact (scan_dollar depth rest).1
  · exact fits_ofList_of_isPlain (List.forall_mem_singleton.2 (h c hc))

theorem isPlain_of_mem_splitIndexes {cs : List Char} (h : Text.IsPlain cs) :
    ∀ part ∈ splitIndexes cs, Text.IsPlain part := by
  fun_induction splitIndexes cs with
  | case1 => exact List.forall_mem_singleton.2 h
  | case2 rest part parts hsplit ih =>
      rw [hsplit] at ih
      exact List.forall_mem_cons.2 ⟨List.forall_mem_nil _, ih h.of_cons.2.2⟩
  | case3 c rest part parts hsplit hc ih =>
      rw [hsplit] at ih
      obtain ⟨hslash, hbrace, hrest⟩ := h.of_cons
      obtain ⟨hpart, hparts⟩ := List.forall_mem_cons.1 (ih hrest)
      exact List.forall_mem_cons.2 ⟨Text.isPlain_cons.2 ⟨⟨hslash, hbrace⟩, hpart⟩, hparts⟩
  | case4 c rest hsplit =>
      obtain ⟨hslash, hbrace, -⟩ := h.of_cons
      exact List.forall_mem_singleton.2 (List.forall_mem_singleton.2 ⟨hslash, hbrace⟩)

theorem fits_hinted (hint : String) (h : Fits s) : Fits (hinted hint s) := by
  unfold hinted
  split
  case h_1 => exact ((Reads.fits fun _ => rfl).append h).append (fits_of_isPlain (by decide))
  case h_12 => exact fits_braced ((fits_command (by decide) (fits_of_isPlain (by decide))).append h)
  case h_13 => exact (h.append (fits_of_isPlain (by decide))).append (fits_braced (fits_word "circ" (by decide)))
  case h_14 => exact h
  -- The other hints are commands.
  all_goals exact fits_command (by decide) h

/-- A name closes what it opens, whatever its hints. -/
theorem fits_name {s : String} (h : Text.IsPlain s.toList) (hints : List String) : Fits (name s hints) := by
  have hbody : Text.IsPlain (unprimed s.toList) := by
    intro c hc
    exact h c (List.mem_reverse.1 ((List.dropWhile_sublist _).subset (List.mem_reverse.1 hc)))
  unfold name
  dsimp only
  refine Fits.append ?_ (fits_ofList_of_isPlain (Text.isPlain_replicate (by decide) _))
  induction hints with
  | nil =>
      refine fits_ofParts fun part hpart => ?_
      obtain ⟨⟨part, depth⟩, hmem, rfl⟩ := List.mem_map.1 hpart
      exact fits_escapeDollars (isPlain_of_mem_splitIndexes hbody part (List.fst_mem_of_mem_zipIdx hmem)) depth
  | cons hint hints ih => exact fits_hinted hint ih

/-! ### Operators -/

theorem fits_operatorText {symbol : String} (h : Text.IsPlain symbol.toList) : Fits (operatorText symbol) := by
  have hblank : Fits " " := fits_of_isPlain (by decide)
  have hspace : Fits " \\, " := Reads.fits fun _ => rfl
  unfold operatorText
  split
  -- The operators that are written as words.
  case h_11 => exact (hspace.append (fits_command (by decide) (fits_of_isPlain (by decide)))).append hspace
  case h_14 | h_15 => exact (hblank.append (fits_command (by decide) (fits_of_isPlain (by decide)))).append hblank
  case h_17 => exact (hspace.append (fits_command (by decide) (fits_of_isPlain (by decide)))).append hspace
  case h_20 => exact (hblank.append (fits_of_isPlain h)).append hblank
  all_goals exact Reads.fits fun _ => rfl

theorem fits_signText {symbol : String} (h : Text.IsPlain symbol.toList) : Fits (signText symbol) := by
  unfold signText
  split
  case h_4 => exact (fits_of_isPlain h).append (fits_of_isPlain (by decide))
  all_goals exact Reads.fits fun _ => rfl

/-! ### Functions -/

theorem fits_unaryCall? {key : String} {arg : Tree} (hs : Fits s) (h : unaryCall? key arg s = some t) : Fits t := by
  have hbrackets : Fits (brackets s) := fits_brackets hs
  have hright : Reads " \\right " [.closes .fence] := fun _ => rfl
  have hclose (sign : String) (hsign : IsCommand sign) : Reads (" \\right " ++ ("\\" ++ sign)) [.closes .fence] :=
    hright.append (reads_command hsign)
  unfold unaryCall? at h
  split at h
  all_goals cases h
  -- The templates in their order.
  case h_1 => exact (fits_word "sqrt" (by decide)).append (fits_spaced hs)
  case h_2 | h_3 | h_4 => exact hs.enclose (d := .fence) (fun _ => rfl) fun _ => rfl
  case h_5 => exact (fits_of_isPlain (by decide)).append (fits_spaced hs)
  case h_6 | h_12 | h_13 => exact (Reads.fits fun _ => rfl).append hbrackets
  case h_7 =>
    have hten : Fits (braced "10") := fits_braced (fits_of_isPlain (by decide))
    exact (((Reads.fits fun _ => rfl).append hten).append (fits_of_isPlain (by decide))).append hbrackets
  case h_8 => exact (fits_brackets_if hs).append (fits_of_isPlain (by decide))
  case h_9 => exact hs.enclose (d := .fence) (fun _ => rfl) (hclose "rceil" (by decide))
  case h_10 => exact hs.enclose (d := .fence) (fun _ => rfl) (hclose "rfloor" (by decide))
  case h_11 => exact (fits_word "overline" (by decide)).append (fits_spaced hs)
  case h_14 =>
    exact ((fits_spaced hs).append (fits_of_isPlain (by decide))).append
      (fits_braced (fits_command (by decide) (fits_of_isPlain (by decide))))

theorem fits_binaryCall? {key a b : String} (ha : Fits a) (hb : Fits b) (h : binaryCall? key a b = some t) :
    Fits t := by
  unfold binaryCall? at h
  split at h
  all_goals cases h
  case h_1 =>
    exact (((Reads.fits fun _ => rfl).append hb).append (fits_of_isPlain (by decide))).append (fits_spaced ha)
  case h_2 => exact ((fits_word "binom" (by decide)).append (fits_spaced ha)).append (fits_spaced hb)
  case h_3 => exact ((fits_spaced ha).append (fits_of_isPlain (by decide))).append (fits_spaced hb)
  all_goals exact (ha.append (Reads.fits fun _ => rfl)).append hb

theorem isCommand_of_mem_namedFunctions : ∀ word ∈ namedFunctions, IsCommand word := by decide

/-- The TeX of a tree closes what it opens, and so does that of each element of a list literal. -/
structure Rendered.Closes (r : Rendered) : Prop where
  text : Fits r.text
  elements : ∀ texts, r.elements = some texts → ∀ s ∈ texts, Fits s

theorem fits_anyCall (settings : Settings) (key : String) {name : String} {args : List Rendered}
    (hname : Text.IsPlain name.toList) (h : ∀ r ∈ args, r.Closes) : Fits (anyCall settings name key args) := by
  have htexts : ∀ s ∈ args.map Rendered.text, Fits s := List.forall_mem_map.2 fun r hr => (h r hr).text
  have harguments : Fits (brackets (", ".intercalate (args.map Rendered.text))) := fits_brackets (fits_commas htexts)
  unfold anyCall
  dsimp only
  split
  · rename_i rows hrows
    refine fits_matrix fun row hrow => ?_
    obtain ⟨r, hr, helements⟩ := exists_mem_of_mapM_eq_some hrows hrow
    exact (h r hr).elements row helements
  · exact fits_vector settings htexts
  · exact fits_setBraces htexts
  · exact (Reads.fits fun _ => rfl).append harguments
  · split
    · rename_i hnamed
      have hword := isCommand_of_mem_namedFunctions _ (List.contains_iff_mem.1 hnamed)
      exact ((fits_word _ hword).append (fits_of_isPlain (by decide))).append harguments
    · have hescaped : Fits (String.ofList (name.toList.flatMap fun c => if c = '_' then ['\\', '_'] else [c])) := by
        refine fits_flatMap fun c hc => ?_
        split
        · exact Reads.fits fun _ => rfl
        · exact fits_ofList_of_isPlain (List.forall_mem_singleton.2 (hname c hc))
      exact ((fits_command (by decide) hescaped).append (fits_of_isPlain (by decide))).append harguments

theorem fits_getD {template : Option String} (h : ∀ t, template = some t → Fits t) (hs : Fits s) :
    Fits (template.getD s) := by
  cases template with
  | none => exact hs
  | some t => exact h t rfl

/-- A function closes what it opens. -/
theorem fits_call (settings : Settings) {name : String} {args : List Tree} {rendered : List Rendered}
    (hname : Text.IsPlain name.toList) (h : ∀ r ∈ rendered, r.Closes) : Fits (call settings name args rendered) := by
  refine fits_getD (fun text htemplate => ?_) (fits_anyCall settings (Text.lower name) hname h)
  split at htemplate
  · rename_i r
    exact fits_unaryCall? (h r List.mem_cons_self).text htemplate
  · rename_i r r'
    exact fits_binaryCall? (h r List.mem_cons_self).text (h r' (List.mem_cons_of_mem r List.mem_cons_self)).text
      htemplate
  · cases htemplate

end MathExpr.Tex
