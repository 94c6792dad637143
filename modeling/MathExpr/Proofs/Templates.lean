import MathExpr.Text.Template
import Mathlib.Algebra.Ring.Parity
import Mathlib.Data.List.Basic
import Mathlib.Data.List.ModifyLast

/-!
# Texts and their pieces

A text is split at its braces into plain texts and slots, which take turns. If the text has no backslashes then
nothing gets lost, however the braces in it are nested, missing their other half or left open: the slots are
balanced, and put back into braces between the plain texts they give the text again. A text in which each brace
has a backslash before it is one plain text, the one without these backslashes
(`Template.isSplitting_pieces_ofText`).

Splitting no text at all would lose nothing either. But what stands between an opening brace and the brace that
closes it has to be a slot, and these conditions leave only one way to split a text (`Template.pieces_eq_iff`).

A slot is found by looking ahead to the brace that closes it. Reading the text once from left to right, with a
count of the open braces, finds the same pieces, whatever backslashes there are (`Template.pieces_eq_finish_run`).
-/

namespace MathExpr

namespace Text

theorem ne_of_isBrace_eq_false {c : Char} (h : isBrace c = false) : c ≠ '\x7b' ∧ c ≠ '\x7d' := by
  constructor <;> (rintro rfl; cases h)

/-! ### Balanced braces -/

/-- Nowhere have more than `depth` braces been closed that had not been opened. -/
def ClosesAtMost (depth : Nat) (cs : List Char) : Prop :=
  ∀ before, before <+: cs → before.count '\x7d' ≤ before.count '\x7b' + depth

/-- Each brace that is closed has been opened before, and each brace that is opened is closed. -/
structure IsBalanced (cs : List Char) : Prop where
  closesAtMost : ClosesAtMost 0 cs
  count_eq : cs.count '\x7d' = cs.count '\x7b'

/-- The first brace that is opened is closed somewhere. -/
def HasGroup (cs : List Char) : Prop :=
  ∃ before inside after, cs = before ++ '\x7b' :: (inside ++ '\x7d' :: after) ∧ '\x7b' ∉ before ∧
    IsBalanced inside

section

variable {c : Char} {cs : List Char} {depth : Nat}

theorem closesAtMost_nil (depth : Nat) : ClosesAtMost depth [] := by
  intro before h
  simp [List.prefix_nil.1 h]

theorem closesAtMost_cons {depth' : Nat}
    (h : ∀ before : List Char, (c :: before).count '\x7d' ≤ (c :: before).count '\x7b' + depth ↔
      before.count '\x7d' ≤ before.count '\x7b' + depth') :
    ClosesAtMost depth (c :: cs) ↔ ClosesAtMost depth' cs := by
  constructor
  · intro hcs before hbefore
    exact (h before).1 (hcs _ (List.cons_prefix_cons.2 ⟨rfl, hbefore⟩))
  · intro hcs before hbefore
    cases before with
    | nil => simp
    | cons b before =>
        obtain ⟨rfl, htail⟩ := List.cons_prefix_cons.1 hbefore
        exact (h before).2 (hcs before htail)

theorem closesAtMost_open : ClosesAtMost depth ('\x7b' :: cs) ↔ ClosesAtMost (depth + 1) cs :=
  closesAtMost_cons fun before => by
    simp
    omega

theorem closesAtMost_close : ClosesAtMost (depth + 1) ('\x7d' :: cs) ↔ ClosesAtMost depth cs :=
  closesAtMost_cons fun before => by
    simp
    omega

theorem not_closesAtMost_close : ¬ClosesAtMost 0 ('\x7d' :: cs) := by
  intro h
  have hclose := h ['\x7d'] (by simp)
  simp at hclose

theorem closesAtMost_plain (h : isBrace c = false) :
    ClosesAtMost depth (c :: cs) ↔ ClosesAtMost depth cs := by
  obtain ⟨hopen, hclose⟩ := ne_of_isBrace_eq_false h
  exact closesAtMost_cons fun before => by simp [hopen, hclose]

theorem HasGroup.mem (h : HasGroup cs) : '\x7b' ∈ cs := by
  obtain ⟨before, inside, after, rfl, -⟩ := h
  simp

end

namespace Template

variable {b c : Char} {plain inside rest cs : List Char} {depth : Nat}

/-! ### Reading one character -/

theorem slot_open (depth : Nat) (rest : List Char) :
    slot depth ('\x7b' :: rest) = (slot (depth + 1) rest).map fun r => ('\x7b' :: r.1, r.2) := by
  rw [slot.eq_def]
  simp

theorem slot_close (rest : List Char) : slot 0 ('\x7d' :: rest) = some ([], rest) := by
  rw [slot.eq_def]
  simp

theorem slot_close_succ (depth : Nat) (rest : List Char) :
    slot (depth + 1) ('\x7d' :: rest) = (slot depth rest).map fun r => ('\x7d' :: r.1, r.2) := by
  rw [slot.eq_def]
  simp

theorem slot_plain (hslash : c ≠ '\\') (hbrace : isBrace c = false) (depth : Nat) (rest : List Char) :
    slot depth (c :: rest) = (slot depth rest).map fun r => (c :: r.1, r.2) := by
  obtain ⟨hopen, hclose⟩ := ne_of_isBrace_eq_false hbrace
  rw [slot.eq_def]
  simp [hslash, hopen, hclose]

theorem split_nil (plain : List Char) : split plain [] = (plain, []) := by
  rw [split.eq_def]

theorem split_plain (hescape : ¬(c = '\\' ∧ rest.head?.any isBrace = true)) (hopen : c ≠ '\x7b') :
    split plain (c :: rest) = split (plain ++ [c]) rest := by
  rw [split.eq_def]
  simp only [if_neg hescape, if_neg hopen]

theorem split_escaped (hb : isBrace b = true) :
    split plain ('\\' :: b :: rest) = split (plain ++ [b]) rest := by
  rw [split.eq_def]
  simp [hb]

theorem split_open_some {r : List Char × List Char} (h : slot 0 rest = some r) :
    split plain ('\x7b' :: rest) = (plain, (r.1, (split [] r.2).1) :: (split [] r.2).2) := by
  rw [split.eq_def]
  simp only [Char.reduceEq, false_and, if_false, if_true]
  split
  · rename_i hr
    cases h.symm.trans hr
    rfl
  · rename_i hr
    cases h.symm.trans hr

theorem split_open_none (h : slot 0 rest = none) :
    split plain ('\x7b' :: rest) = (plain ++ '\x7b' :: rest, []) := by
  rw [split.eq_def]
  simp only [Char.reduceEq, false_and, if_false, if_true]
  split
  · rename_i hr
    cases h.symm.trans hr
  · rfl

/-! ### Slots without backslashes -/

/-- Characters are read one by one as long as they close no more braces than are open. -/
theorem slot_append (hslash : '\\' ∉ inside) (h : ClosesAtMost depth inside) (rest : List Char) :
    slot depth (inside ++ rest) =
      (slot (depth + inside.count '\x7b' - inside.count '\x7d') rest).map fun r => (inside ++ r.1, r.2) := by
  induction inside generalizing depth with
  | nil => simp
  | cons c inside ih =>
      rw [List.mem_cons, not_or] at hslash
      by_cases hopen : c = '\x7b'
      · subst hopen
        have hdepth : depth + 1 + inside.count '\x7b' = depth + (inside.count '\x7b' + 1) := by omega
        simp [slot_open, ih hslash.2 (closesAtMost_open.1 h), hdepth, Function.comp_def]
      · by_cases hclose : c = '\x7d'
        · subst hclose
          cases depth with
          | zero => exact absurd h not_closesAtMost_close
          | succ depth =>
              have hdepth : depth + 1 + inside.count '\x7b' - (inside.count '\x7d' + 1) =
                  depth + inside.count '\x7b' - inside.count '\x7d' := by omega
              simp [slot_close_succ, ih hslash.2 (closesAtMost_close.1 h), hdepth, Function.comp_def]
        · have hbrace : isBrace c = false := by simp [isBrace, hopen, hclose]
          simp [slot_plain (Ne.symm hslash.1) hbrace, ih hslash.2 ((closesAtMost_plain hbrace).1 h), hopen,
            hclose, Function.comp_def]

/-- The inside of a slot closes just the braces that are open when it begins. -/
theorem of_slot_eq_some (hslash : '\\' ∉ cs) {r : List Char × List Char} (h : slot depth cs = some r) :
    cs = r.1 ++ '\x7d' :: r.2 ∧ ClosesAtMost depth r.1 ∧
      r.1.count '\x7d' = r.1.count '\x7b' + depth := by
  fun_induction slot depth cs generalizing r with
  | case1 => cases h
  | case2 depth c d rest hc ih => simp [hc.1] at hslash
  | case3 => cases h
  | case4 depth rest hc ih =>
      obtain ⟨x, hx, rfl⟩ := Option.map_eq_some_iff.1 h
      obtain ⟨hcs, hcloses, hcount⟩ := ih (mt (List.mem_cons_of_mem _) hslash) hx
      refine ⟨by simp [← hcs], closesAtMost_open.2 hcloses, ?_⟩
      simp [hcount]
      omega
  | case5 rest =>
      cases h
      exact ⟨rfl, closesAtMost_nil 0, rfl⟩
  | case6 rest _ _ depth ih =>
      obtain ⟨x, hx, rfl⟩ := Option.map_eq_some_iff.1 h
      obtain ⟨hcs, hcloses, hcount⟩ := ih (mt (List.mem_cons_of_mem _) hslash) hx
      refine ⟨by simp [← hcs], closesAtMost_close.2 hcloses, ?_⟩
      simp [hcount]
      omega
  | case7 depth c rest _ hopen hclose ih =>
      obtain ⟨x, hx, rfl⟩ := Option.map_eq_some_iff.1 h
      obtain ⟨hcs, hcloses, hcount⟩ := ih (mt (List.mem_cons_of_mem _) hslash) hx
      have hbrace : isBrace c = false := by simp [isBrace, hopen, hclose]
      refine ⟨by simp [← hcs], (closesAtMost_plain hbrace).2 hcloses, ?_⟩
      simp [hcount, hopen, hclose]

theorem slot_group (hslash : '\\' ∉ inside) (h : IsBalanced inside) (rest : List Char) :
    slot 0 (inside ++ '\x7d' :: rest) = some (inside, rest) := by
  simp [slot_append hslash h.closesAtMost, h.count_eq, slot_close]

/-- A slot goes up to the brace that closes it. -/
theorem slot_eq_some_iff (hslash : '\\' ∉ cs) {after : List Char} :
    slot 0 cs = some (inside, after) ↔ cs = inside ++ '\x7d' :: after ∧ IsBalanced inside := by
  constructor
  · intro h
    obtain ⟨hcs, hcloses, hcount⟩ := of_slot_eq_some hslash h
    exact ⟨hcs, hcloses, hcount⟩
  · intro ⟨hcs, hinside⟩
    subst hcs
    exact slot_group (mt (List.mem_append_left _) hslash) hinside after

/-! ### Plain texts without backslashes -/

/-- Characters up to the first brace that is opened are read one by one. -/
theorem split_append (hslash : '\\' ∉ cs) (hopen : '\x7b' ∉ cs) (plain rest : List Char) :
    split plain (cs ++ rest) = split (plain ++ cs) rest := by
  induction cs generalizing plain with
  | nil => simp
  | cons c cs ih =>
      rw [List.mem_cons, not_or] at hslash hopen
      have hescape : ¬(c = '\\' ∧ (cs ++ rest).head?.any isBrace = true) := fun hc => hslash.1 hc.1.symm
      rw [List.cons_append, split_plain hescape (Ne.symm hopen.1), ih hslash.2 hopen.2]
      simp

/-- A group is a slot, and what stands behind it is split on its own. -/
theorem split_group (hplain : '\x7b' ∉ plain) (hslash : '\\' ∉ plain) (hslash' : '\\' ∉ inside)
    (hinside : IsBalanced inside) (rest : List Char) :
    split [] (plain ++ '\x7b' :: (inside ++ '\x7d' :: rest)) =
      (plain, (inside, (split [] rest).1) :: (split [] rest).2) := by
  rw [split_append hslash hplain, List.nil_append, split_open_some (slot_group hslash' hinside rest)]

theorem split_of_not_hasGroup (hslash : '\\' ∉ cs) (h : ¬HasGroup cs) : split [] cs = (cs, []) := by
  by_cases hopen : '\x7b' ∈ cs
  · obtain ⟨before, rest, rfl, hbefore⟩ := List.eq_append_cons_of_mem hopen
    simp only [List.mem_append, List.mem_cons, not_or] at hslash
    rw [split_append hslash.1 hbefore, List.nil_append]
    cases hslot : slot 0 rest with
    | none => exact split_open_none hslot
    | some r =>
        obtain ⟨hrest, hinside⟩ := (slot_eq_some_iff hslash.2.2).1 hslot
        exact absurd ⟨before, r.1, r.2, by rw [hrest], hbefore, hinside⟩ h
  · simpa [split_nil] using split_append hslash hopen [] []

/-- There is only one first brace that is opened. -/
theorem eq_of_append_open {before after : List Char} (hplain : '\x7b' ∉ plain) (hbefore : '\x7b' ∉ before)
    (h : plain ++ '\x7b' :: rest = before ++ '\x7b' :: after) : rest = after := by
  have hdrop {cs : List Char} (hcs : '\x7b' ∉ cs) (more : List Char) :
      (cs ++ '\x7b' :: more).dropWhile (· != '\x7b') = '\x7b' :: more := by
    have hne : ∀ c ∈ cs, (c != '\x7b') = true := by
      intro c hc
      simpa using ne_of_mem_of_not_mem hc hcs
    simp [List.dropWhile_append_of_pos hne]
  have hrest := congrArg (List.dropWhile (· != '\x7b')) h
  rw [hdrop hplain, hdrop hbefore] at hrest
  exact (List.cons.inj hrest).2

/-- A brace that is left open begins no group. -/
theorem not_hasGroup_of_slot_eq_none (hplain : '\x7b' ∉ plain) (hslash : '\\' ∉ rest)
    (h : slot 0 rest = none) : ¬HasGroup (plain ++ '\x7b' :: rest) := by
  intro ⟨before, inside, after, heq, hbefore, hinside⟩
  have hslot := (slot_eq_some_iff hslash).2 ⟨eq_of_append_open hplain hbefore heq, hinside⟩
  rw [h] at hslot
  cases hslot

end Template

/-! ### Pieces -/

/-- Pieces put together again: those at odd places stand in braces. -/
def unsplit (pieces : List String) : String :=
  String.join (pieces.mapIdx fun i piece => if Odd i then "\x7b" ++ piece ++ "\x7d" else piece)

/-- The text consists of these plain texts, at even places, and these slots, at odd places. No plain text has a
slot in it, and no brace is opened in any but the last one. -/
structure IsSplitting (s : String) (pieces : List String) : Prop where
  odd_length : Odd pieces.length
  unsplit_eq : unsplit pieces = s
  isBalanced : ∀ (i : Nat) (piece : String), pieces[i]? = some piece → Odd i → IsBalanced piece.toList
  not_hasGroup : ∀ (i : Nat) (piece : String), pieces[i]? = some piece → Even i → ¬HasGroup piece.toList
  opens_last : ∀ (i : Nat) (piece : String), pieces[i]? = some piece → Even i → '\x7b' ∈ piece.toList →
    i + 1 = pieces.length

section

variable {s plain inside : String} {pieces : List String}

theorem unsplit_cons (plain inside : String) (pieces : List String) :
    unsplit (plain :: inside :: pieces) = plain ++ "\x7b" ++ inside ++ "\x7d" ++ unsplit pieces := by
  have hparity (i : Nat) : Odd (i + 1 + 1) ↔ Odd i := by simp [Nat.odd_add_one]
  simp [unsplit, List.mapIdx_cons, String.join_cons, hparity, String.append_assoc]

theorem forall_getElem?_cons_cons {α : Type} {P : Nat → α → Prop} {a b : α} {l : List α} :
    (∀ i x, (a :: b :: l)[i]? = some x → P i x) ↔
      P 0 a ∧ P 1 b ∧ ∀ i x, l[i]? = some x → P (i + 2) x := by
  constructor
  · intro h
    exact ⟨h 0 a rfl, h 1 b rfl, fun i x hx => h (i + 2) x hx⟩
  · intro ⟨ha, hb, hl⟩ i x hx
    match i with
    | 0 =>
        cases hx
        exact ha
    | 1 =>
        cases hx
        exact hb
    | i + 2 => exact hl i x hx

theorem isSplitting_singleton : IsSplitting s [plain] ↔ plain = s ∧ ¬HasGroup plain.toList := by
  constructor
  · intro h
    exact ⟨by simpa [unsplit] using h.unsplit_eq, h.not_hasGroup 0 plain rfl Even.zero⟩
  · intro ⟨heq, hgroup⟩
    have hzero {i : Nat} {piece : String} (h : [plain][i]? = some piece) : i = 0 ∧ piece = plain := by
      cases i <;> simp_all
    refine ⟨odd_one, by simpa [unsplit] using heq, fun i piece h hodd => ?_, fun i piece h _ => ?_,
      fun i piece h _ _ => by simp [(hzero h).1]⟩
    · simp [(hzero h).1] at hodd
    · rwa [(hzero h).2]

/-- If there are more pieces than one, the text begins with a plain text and a slot, and the others are the pieces
of what stands behind. -/
theorem isSplitting_cons : IsSplitting s (plain :: inside :: pieces) ↔
    '\x7b' ∉ plain.toList ∧ IsBalanced inside.toList ∧
      ∃ rest, s = plain ++ "\x7b" ++ inside ++ "\x7d" ++ rest ∧ IsSplitting rest pieces := by
  have hodd (i : Nat) : Odd (i + 2) ↔ Odd i := by simp [parity_simps]
  have heven (i : Nat) : Even (i + 2) ↔ Even i := by simp [parity_simps]
  constructor
  · intro h
    have hlength : Odd (pieces.length + 2) := h.odd_length
    obtain ⟨-, hinside, hslots⟩ := forall_getElem?_cons_cons.1 h.isBalanced
    obtain ⟨-, -, hgroups⟩ := forall_getElem?_cons_cons.1 h.not_hasGroup
    obtain ⟨hplain, -, hplains⟩ := forall_getElem?_cons_cons.1 h.opens_last
    simp only [hodd, heven] at hlength hslots hgroups hplains
    refine ⟨fun hopen => by simpa using hplain Even.zero hopen, hinside odd_one, unsplit pieces,
      by rw [← unsplit_cons, h.unsplit_eq], hlength, rfl, hslots, hgroups, fun i piece hi hpiece hopen => ?_⟩
    simpa using hplains i piece hi hpiece hopen
  · intro ⟨hplain, hinside, rest, heq, h⟩
    refine ⟨(hodd _).2 h.odd_length, by rw [unsplit_cons, h.unsplit_eq, heq], forall_getElem?_cons_cons.2 ?_,
      forall_getElem?_cons_cons.2 ?_, forall_getElem?_cons_cons.2 ?_⟩
    · refine ⟨fun hzero => by simp at hzero, fun _ => hinside, ?_⟩
      simpa only [hodd] using h.isBalanced
    · refine ⟨fun _ hgroup => hplain hgroup.mem, fun hone => by simp at hone, ?_⟩
      simpa only [heven] using h.not_hasGroup
    · refine ⟨fun _ hopen => absurd hopen hplain, fun hone => by simp at hone, ?_⟩
      intro i piece hi hpiece hopen
      exact congrArg (· + 2) (h.opens_last i piece hi ((heven i).1 hpiece) hopen)

end

/-! ### The pieces of a text without backslashes -/

namespace Template

/-- The plain texts and the slots, in turn, on lists of characters. -/
def pieceChars (t : List Char × List (List Char × List Char)) : List (List Char) :=
  t.1 :: t.2.flatMap fun r => [r.1, r.2]

theorem pieceChars_nil (plain : List Char) : pieceChars (plain, []) = [plain] := rfl

theorem pieceChars_cons (plain inside after : List Char) (slots : List (List Char × List Char)) :
    pieceChars (plain, (inside, after) :: slots) = plain :: inside :: pieceChars (after, slots) := rfl

theorem pieces_ofText (s : String) :
    (ofText s).pieces = (pieceChars (split [] s.toList)).map String.ofList := by
  simp [pieces, ofText, pieceChars, List.flatMap_map, List.map_flatMap]

/-- What has been read before is in the first piece. -/
theorem isSplitting_pieceChars (plain : List Char) {cs : List Char} (hslash : '\\' ∉ cs)
    (hplain : '\x7b' ∉ plain) :
    IsSplitting (String.ofList (plain ++ cs)) ((pieceChars (split plain cs)).map String.ofList) := by
  fun_induction split plain cs with
  | case1 plain =>
      rw [pieceChars_nil, List.map_singleton, isSplitting_singleton]
      refine ⟨by simp, fun h => hplain ?_⟩
      simpa using h.mem
  | case2 plain c d rest hc ih => simp [hc.1] at hslash
  | case3 plain c hc => cases hc.2
  | case4 plain rest r hslot after hc ih =>
      -- a slot: it is balanced, and the induction goes on behind it with nothing read yet
      rw [List.mem_cons, not_or] at hslash
      obtain ⟨hrest, hinside⟩ := (slot_eq_some_iff hslash.2).1 hslot
      have hafter : '\\' ∉ r.2 := fun hmem => hslash.2 (by simp [hrest, hmem])
      rw [pieceChars_cons, List.map_cons, List.map_cons, isSplitting_cons]
      refine ⟨by simpa using hplain, by simpa using hinside, String.ofList r.2, ?_,
        ih hafter List.not_mem_nil⟩
      simp [← String.toList_inj, hrest]
  | case5 plain rest hslot hc =>
      -- a brace that is left open: the rest of the text belongs to the last piece
      rw [List.mem_cons, not_or] at hslash
      rw [pieceChars_nil, List.map_singleton, isSplitting_singleton]
      refine ⟨rfl, ?_⟩
      simpa using not_hasGroup_of_slot_eq_none hplain hslash.2 hslot
  | case6 plain c rest hc hopen ih =>
      rw [List.mem_cons, not_or] at hslash
      have hplain : '\x7b' ∉ plain ++ [c] := by simp [hplain, Ne.symm hopen]
      simpa using ih hslash.2 hplain

theorem isSplitting_pieces {s : String} (hslash : '\\' ∉ s.toList) : IsSplitting s (ofText s).pieces := by
  have h := isSplitting_pieceChars [] hslash List.not_mem_nil
  rwa [List.nil_append, String.ofList_toList, ← pieces_ofText] at h

theorem pieces_eq_of_isSplitting : {pieces : List String} → {s : String} → '\\' ∉ s.toList →
    IsSplitting s pieces → (ofText s).pieces = pieces
  | [], _, _, h => absurd h.odd_length (by simp)
  | [plain], s, hslash, h => by
      obtain ⟨rfl, hgroup⟩ := isSplitting_singleton.1 h
      rw [pieces_ofText, split_of_not_hasGroup hslash hgroup]
      simp [pieceChars_nil]
  | plain :: inside :: pieces, s, hslash, h => by
      obtain ⟨hplain, hinside, rest, rfl, hmore⟩ := isSplitting_cons.1 h
      have htext : (plain ++ "\x7b" ++ inside ++ "\x7d" ++ rest).toList =
          plain.toList ++ '\x7b' :: (inside.toList ++ '\x7d' :: rest.toList) := by
        simp
      rw [htext] at hslash
      simp only [List.mem_append, List.mem_cons, not_or] at hslash
      obtain ⟨hslash, -, hslash', -, hslashRest⟩ := hslash
      have hrest : (ofText rest).pieces = pieces := pieces_eq_of_isSplitting hslashRest hmore
      rw [pieces_ofText, htext, split_group hplain hslash hslash' hinside, pieceChars_cons, ← hrest,
        pieces_ofText]
      simp

/-- **The pieces of a text.** There is one way to split a text without backslashes into plain texts and slots. -/
theorem pieces_eq_iff {s : String} (hslash : '\\' ∉ s.toList) {pieces : List String} :
    (ofText s).pieces = pieces ↔ IsSplitting s pieces := by
  constructor
  · intro h
    exact h ▸ isSplitting_pieces hslash
  · exact pieces_eq_of_isSplitting hslash

end Template

/-! ### Escaped braces -/

/-- A backslash before each brace, on lists of characters. -/
def escapeBraceChars (cs : List Char) : List Char :=
  cs.flatMap fun c => if isBrace c then ['\\', c] else [c]

/-- The text with a backslash put before each brace. -/
def escapeBraces (s : String) : String :=
  String.ofList (escapeBraceChars s.toList)

theorem escapeBraceChars_brace {b : Char} (hb : isBrace b = true) (cs : List Char) :
    escapeBraceChars (b :: cs) = '\\' :: b :: escapeBraceChars cs := by
  simp [escapeBraceChars, hb]

theorem escapeBraceChars_plain {c : Char} (hc : isBrace c = false) (cs : List Char) :
    escapeBraceChars (c :: cs) = c :: escapeBraceChars cs := by
  simp [escapeBraceChars, hc]

/-- A backslash of the text itself escapes nothing: no brace stands behind it now. -/
theorem head?_escapeBraceChars (cs : List Char) : (escapeBraceChars cs).head?.any isBrace = false := by
  cases cs with
  | nil => rfl
  | cons c cs =>
      cases hc : isBrace c with
      | true =>
          rw [escapeBraceChars_brace hc]
          rfl
      | false =>
          rw [escapeBraceChars_plain hc]
          exact hc

theorem split_escapeBraceChars (plain cs : List Char) :
    Template.split plain (escapeBraceChars cs) = (plain ++ cs, []) := by
  induction cs generalizing plain with
  | nil => simp [escapeBraceChars, Template.split_nil]
  | cons c cs ih =>
      have hplain : plain ++ c :: cs = plain ++ [c] ++ cs := by simp
      rw [hplain, ← ih]
      cases hc : isBrace c with
      | true => rw [escapeBraceChars_brace hc, Template.split_escaped hc]
      | false =>
          have hescape : ¬(c = '\\' ∧ (escapeBraceChars cs).head?.any isBrace = true) := by
            simp [head?_escapeBraceChars]
          rw [escapeBraceChars_plain hc, Template.split_plain hescape (ne_of_isBrace_eq_false hc).1]

theorem pieces_escapeBraces (s : String) : (Template.ofText (escapeBraces s)).pieces = [s] := by
  rw [Template.pieces_ofText, escapeBraces, String.toList_ofList, split_escapeBraceChars]
  simp [Template.pieceChars_nil]

/-- **Splitting loses nothing.** A text without backslashes is split into an odd number of pieces. Those at odd
places are balanced and give the text again if they are put back into braces between the others. A text with a
backslash before each brace is split into one piece, the text without these backslashes. -/
theorem Template.isSplitting_pieces_ofText (s : String) :
    ('\\' ∉ s.toList → IsSplitting s (ofText s).pieces) ∧ (ofText (escapeBraces s)).pieces = [s] :=
  ⟨isSplitting_pieces, pieces_escapeBraces s⟩

/-- Nested braces, a brace that was never opened, and a group behind one that is left open. -/
theorem Template.isSplitting_pieces_ofText_nested :
    '\\' ∉ "a\x7bf(\x7bb\x7d)\x7dc\x7dd\x7be\x7bf\x7d".toList ∧
      IsSplitting "a\x7bf(\x7bb\x7d)\x7dc\x7dd\x7be\x7bf\x7d" ["a", "f(\x7bb\x7d)", "c\x7dd\x7be\x7bf\x7d"] ∧
      (ofText "a\\\x7bf(\\\x7bb\\\x7d)\\\x7dc\\\x7dd\\\x7be\\\x7bf\\\x7d").pieces =
        ["a\x7bf(\x7bb\x7d)\x7dc\x7dd\x7be\x7bf\x7d"] := by
  have hslash : '\\' ∉ "a\x7bf(\x7bb\x7d)\x7dc\x7dd\x7be\x7bf\x7d".toList := by decide
  have hpieces : (ofText "a\x7bf(\x7bb\x7d)\x7dc\x7dd\x7be\x7bf\x7d").pieces =
      ["a", "f(\x7bb\x7d)", "c\x7dd\x7be\x7bf\x7d"] := by decide +kernel
  have hescaped : escapeBraces "a\x7bf(\x7bb\x7d)\x7dc\x7dd\x7be\x7bf\x7d" =
      "a\\\x7bf(\\\x7bb\\\x7d)\\\x7dc\\\x7dd\\\x7be\\\x7bf\\\x7d" := by decide +kernel
  have h := isSplitting_pieces_ofText "a\x7bf(\x7bb\x7d)\x7dc\x7dd\x7be\x7bf\x7d"
  rw [hpieces, hescaped] at h
  exact ⟨hslash, h.1 hslash, h.2⟩

/-! ### One pass -/

/-- What has been read of a text: the pieces that are complete, the one that is being read, and how many braces
are open. -/
structure Reading where
  complete : List (List Char)
  current : List Char
  depth : Nat

namespace Reading

/-- Reads a character that is not escaped. -/
def step (r : Reading) (c : Char) : Reading :=
  if c = '\x7b' then
    if r.depth = 0 then ⟨r.complete ++ [r.current], [], 1⟩
    else ⟨r.complete, r.current ++ [c], r.depth + 1⟩
  else if c = '\x7d' ∧ 0 < r.depth then
    if r.depth = 1 then ⟨r.complete ++ [r.current], [], 0⟩
    else ⟨r.complete, r.current ++ [c], r.depth - 1⟩
  else ⟨r.complete, r.current ++ [c], r.depth⟩

/-- Reads a text. An escaped brace keeps its backslash in slots only. -/
def run (r : Reading) : List Char → Reading
  | [] => r
  | c :: rest =>
    if c = '\\' ∧ rest.head?.any isBrace then
      match rest with
      | b :: rest => run { r with current := r.current ++ if r.depth = 0 then [b] else [c, b] } rest
      | [] => r
    else run (r.step c) rest

/-- The pieces in the end. What is left open goes back to the plain text before it. -/
def finish (r : Reading) : List (List Char) :=
  if r.depth = 0 then r.complete ++ [r.current] else r.complete.modifyLast (· ++ '\x7b' :: r.current)

variable {cs : List Char} {depth : Nat}

theorem run_escaped {b : Char} (hb : isBrace b = true) (r : Reading) (rest : List Char) :
    r.run ('\\' :: b :: rest) =
      run { r with current := r.current ++ if r.depth = 0 then [b] else ['\\', b] } rest := by
  rw [run.eq_def]
  simp [hb]

theorem run_step {c : Char} {rest : List Char} (h : ¬(c = '\\' ∧ rest.head?.any isBrace = true))
    (r : Reading) : r.run (c :: rest) = (r.step c).run rest := by
  rw [run.eq_def]
  simp only [if_neg h]

/-- A slot that has begun is complete at the brace that closes it. -/
theorem run_of_slot_eq_some {x : List Char × List Char} (h : Template.slot depth cs = some x)
    (complete : List (List Char)) (current : List Char) :
    run ⟨complete, current, depth + 1⟩ cs = run ⟨complete ++ [current ++ x.1], [], 0⟩ x.2 := by
  fun_induction Template.slot depth cs generalizing current x with
  | case1 => cases h
  | case2 depth c d rest hc ih =>
      obtain ⟨y, hy, rfl⟩ := Option.map_eq_some_iff.1 h
      obtain ⟨rfl, hd⟩ := hc
      rw [run_escaped hd]
      simpa using ih hy (current ++ ['\\', d])
  | case3 => cases h
  | case4 depth rest hc ih =>
      obtain ⟨y, hy, rfl⟩ := Option.map_eq_some_iff.1 h
      rw [run_step hc]
      simpa [step] using ih hy (current ++ ['\x7b'])
  | case5 rest hc =>
      cases h
      rw [run_step hc]
      simp [step]
  | case6 rest depth hc _ ih =>
      obtain ⟨y, hy, rfl⟩ := Option.map_eq_some_iff.1 h
      rw [run_step hc]
      simpa [step] using ih hy (current ++ ['\x7d'])
  | case7 depth c rest hc hopen hclose ih =>
      obtain ⟨y, hy, rfl⟩ := Option.map_eq_some_iff.1 h
      rw [run_step hc]
      simpa [step, hopen, hclose] using ih hy (current ++ [c])

/-- A slot that is never closed takes up the rest of the text as it stands. -/
theorem run_of_slot_eq_none (h : Template.slot depth cs = none) (complete : List (List Char))
    (current : List Char) :
    ∃ n, run ⟨complete, current, depth + 1⟩ cs = ⟨complete, current ++ cs, n + 1⟩ := by
  fun_induction Template.slot depth cs generalizing current with
  | case1 depth => exact ⟨depth, by simp [run]⟩
  | case2 depth c d rest hc ih =>
      obtain ⟨rfl, hd⟩ := hc
      rw [run_escaped hd]
      simpa using ih (Option.map_eq_none_iff.1 h) (current ++ ['\\', d])
  | case3 depth c hc => cases hc.2
  | case4 depth rest hc ih =>
      rw [run_step hc]
      simpa [step] using ih (Option.map_eq_none_iff.1 h) (current ++ ['\x7b'])
  | case5 => cases h
  | case6 rest depth hc _ ih =>
      rw [run_step hc]
      simpa [step] using ih (Option.map_eq_none_iff.1 h) (current ++ ['\x7d'])
  | case7 depth c rest hc hopen hclose ih =>
      rw [run_step hc]
      simpa [step, hopen, hclose] using ih (Option.map_eq_none_iff.1 h) (current ++ [c])

/-- Outside of slots the pieces that are complete stay, and the others are those of the rest. -/
theorem finish_run (plain cs : List Char) : ∀ complete : List (List Char),
    (run ⟨complete, plain, 0⟩ cs).finish = complete ++ Template.pieceChars (Template.split plain cs) := by
  fun_induction Template.split plain cs with intro complete
  | case1 plain => simp [run, finish, Template.pieceChars]
  | case2 plain c d rest hc ih =>
      obtain ⟨rfl, hd⟩ := hc
      rw [run_escaped hd]
      exact ih complete
  | case3 plain c hc => cases hc.2
  | case4 plain rest r hslot after hc ih =>
      rw [run_step hc]
      show (run ⟨complete ++ [plain], [], 1⟩ rest).finish = _
      rw [run_of_slot_eq_some hslot, List.nil_append, ih]
      simp [Template.pieceChars, after]
  | case5 plain rest hslot hc =>
      obtain ⟨n, hrun⟩ := run_of_slot_eq_none hslot (complete ++ [plain]) []
      rw [run_step hc]
      show (run ⟨complete ++ [plain], [], 1⟩ rest).finish = _
      rw [hrun]
      simp [finish, List.modifyLast_concat, Template.pieceChars]
  | case6 plain c rest hc hopen ih =>
      have hstep : step ⟨complete, plain, 0⟩ c = ⟨complete, plain ++ [c], 0⟩ := by simp [step, hopen]
      rw [run_step hc, hstep, ih]

end Reading

/-- **One pass.** The pieces of a text are found by reading it once and counting the open braces. -/
theorem Template.pieces_eq_finish_run (s : String) :
    (ofText s).pieces = (Reading.run ⟨[], [], 0⟩ s.toList).finish.map String.ofList := by
  rw [Reading.finish_run, List.nil_append, pieces_ofText]

end Text

end MathExpr
