import MathExpr.Proofs.SubstitutionLemma
import MathExpr.Proofs.Templates
import MathExpr.Proofs.ValuesAsLeaves

/-!
# Texts that are inserted into texts

A slot of a text is filled with the value of the expression in it, and a value that is a text is put there
character by character, so that its braces are no slots. Nevertheless it may arrive changed: once its slots
are filled in, the text as a whole loses the backslash before each brace, those of inserted texts included.
What is inserted stays as it is exactly if no brace in it has a backslash (`Scope.eval_insertedText`).
-/

namespace MathExpr

namespace Text

/-- Without backslashes and braces. -/
def IsPlain (cs : List Char) : Prop := ∀ c ∈ cs, c ≠ '\\' ∧ isBrace c = false

instance (cs : List Char) : Decidable (IsPlain cs) :=
  List.decidableBAll (fun c => c ≠ '\\' ∧ isBrace c = false) cs

/-- Some brace has a backslash before it. -/
def EscapesBrace (cs : List Char) : Prop :=
  ∃ before b after, cs = before ++ '\\' :: b :: after ∧ isBrace b = true

theorem IsPlain.of_cons {c : Char} {cs : List Char} (h : IsPlain (c :: cs)) :
    c ≠ '\\' ∧ isBrace c = false ∧ IsPlain cs :=
  ⟨(h c List.mem_cons_self).1, (h c List.mem_cons_self).2, fun b hb => h b (List.mem_cons_of_mem c hb)⟩

theorem IsPlain.any_isBrace {cs : List Char} (h : IsPlain cs) : cs.any isBrace = false :=
  List.any_eq_false.2 fun c hc => by rw [(h c hc).2]; exact Bool.false_ne_true

theorem IsPlain.slash_not_mem {cs : List Char} (h : IsPlain cs) : '\\' ∉ cs := by
  intro hmem
  exact (h _ hmem).1 rfl

theorem IsPlain.not_mem {cs : List Char} (h : IsPlain cs) {b : Char} (hb : isBrace b = true) : b ∉ cs := by
  intro hmem
  simp [(h b hmem).2] at hb

theorem IsPlain.isBalanced {cs : List Char} (h : IsPlain cs) : IsBalanced cs where
  closesAtMost before hbefore := by
    have hclose : '\x7d' ∉ before := mt (hbefore.mem ·) (h.not_mem rfl)
    simp [List.count_eq_zero.2 hclose]
  count_eq := by
    rw [List.count_eq_zero.2 (h.not_mem rfl), List.count_eq_zero.2 (h.not_mem rfl)]

/-! ### The template of a text with one slot -/

/-- A text with one slot in it. -/
def withSlot (before inside after : String) : String :=
  before ++ "\x7b" ++ inside ++ "\x7d" ++ after

theorem toList_withSlot (before inside after : String) :
    (withSlot before inside after).toList =
      before.toList ++ '\x7b' :: (inside.toList ++ '\x7d' :: after.toList) := by
  unfold withSlot
  simp only [String.toList_append, List.append_assoc]
  rfl

theorem Template.ofText_withSlot {before inside after : String} (hbefore : IsPlain before.toList)
    (hinside : IsPlain inside.toList) (hafter : IsPlain after.toList) :
    ofText (withSlot before inside after) = ⟨before, [(inside, after)]⟩ := by
  have hsplit : split [] (withSlot before inside after).toList =
      (before.toList, [(inside.toList, after.toList)]) := by
    rw [toList_withSlot, split_group (hbefore.not_mem rfl) hbefore.slash_not_mem hinside.slash_not_mem
      hinside.isBalanced, FreeNames.split_of_no_brace hafter.any_isBrace, List.nil_append]
  unfold ofText
  rw [hsplit]
  simp only [List.map_cons, List.map_nil, String.ofList_toList]

/-! ### Backslashes before braces -/

theorem unescapeBraceChars_append {before : List Char} (h : IsPlain before) (cs : List Char) :
    unescapeBraceChars (before ++ cs) = before ++ unescapeBraceChars cs := by
  induction before with
  | nil => rfl
  | cons c before ih =>
      obtain ⟨hslash, -, hbefore⟩ := h.of_cons
      rw [List.cons_append, unescapeBraceChars, if_neg fun hc => hslash hc.1, ih hbefore]
      rfl

theorem unescapeBraceChars_append_right {after : List Char} (h : after.any isBrace = false)
    (cs : List Char) : unescapeBraceChars (cs ++ after) = unescapeBraceChars cs ++ after := by
  induction cs with
  | nil => exact Evaluate.unescapeBraceChars_of_no_brace h
  | cons c rest ih =>
      have hhead : (rest ++ after).head?.any isBrace = rest.head?.any isBrace := by
        cases rest with
        | nil => exact FreeNames.head?_any_of_any h
        | cons => rfl
      rw [List.cons_append, unescapeBraceChars, unescapeBraceChars, hhead, ih]
      split <;> rfl

theorem unescapeBraces_append {before after : String} (hbefore : IsPlain before.toList)
    (hafter : IsPlain after.toList) (s : String) :
    unescapeBraces (before ++ s ++ after) = before ++ unescapeBraces s ++ after := by
  unfold unescapeBraces
  rw [String.toList_append, String.toList_append, unescapeBraceChars_append_right hafter.any_isBrace,
    unescapeBraceChars_append hbefore, String.ofList_append, String.ofList_append, String.ofList_toList,
    String.ofList_toList]

theorem escapesBrace_cons {c : Char} {rest : List Char} :
    EscapesBrace (c :: rest) ↔ c = '\\' ∧ rest.head?.any isBrace = true ∨ EscapesBrace rest := by
  constructor
  · rintro ⟨before, b, after, heq, hb⟩
    cases before with
    | nil =>
        cases heq
        exact .inl ⟨rfl, hb⟩
    | cons _ before =>
        cases heq
        exact .inr ⟨before, b, after, rfl, hb⟩
  · rintro (⟨rfl, hb⟩ | ⟨before, b, after, rfl, hb⟩)
    · cases rest with
      | nil => cases hb
      | cons b after => exact ⟨[], b, after, rfl, hb⟩
    · exact ⟨c :: before, b, after, rfl, hb⟩

/-- A backslash is dropped from each text in which one stands before a brace. -/
theorem unescapeBraceChars_eq_iff (cs : List Char) : unescapeBraceChars cs = cs ↔ ¬EscapesBrace cs := by
  induction cs with
  | nil =>
      refine iff_of_true rfl ?_
      rintro ⟨before, b, after, heq, -⟩
      cases before <;> cases heq
  | cons c rest ih =>
      rw [escapesBrace_cons, unescapeBraceChars]
      split
      · rename_i hc
        refine iff_of_false (fun heq => ?_) fun h => h (.inl hc)
        have hle := length_unescapeBraceChars rest
        rw [heq] at hle
        exact absurd hle (Nat.not_succ_le_self _)
      · rename_i hc
        rw [List.cons.injEq, ih, not_or]
        exact ⟨fun h => ⟨hc, h.2⟩, fun h => ⟨rfl, h.2⟩⟩

theorem unescapeBraces_eq_iff (s : String) : unescapeBraces s = s ↔ ¬EscapesBrace s.toList := by
  unfold unescapeBraces
  rw [← unescapeBraceChars_eq_iff, ← String.toList_inj, String.toList_ofList]

end Text

/-! ### Inserted texts -/

namespace Scope

open MathExpr.Action (runFrom runFrom_bind)

/-- Source text that is one name is read as this name in every scope. -/
theorem tree_name (s : Scope) {source name : String} {hints : List String}
    (h : Token.ofSource (Text.strip source) = .ok [.name name hints]) :
    s.tree source = .ok (some (.leaf (.name name hints))) := by
  have hnonempty : (Text.strip source).isEmpty = false := by
    rw [← Bool.not_eq_true, String.isEmpty_iff]
    intro hempty
    rw [hempty, show Token.ofSource "" = .ok [] by decide +kernel] at h
    cases h
  rw [tree_eq_ofTokens h hnonempty]
  rfl

theorem runFrom_variable {s : Scope} {name : String} {v : Value} (h : s.value? name = some v)
    (hints : List String) (d : Draws) :
    runFrom (Evaluate.atLevel Evaluate.levels s (.leaf (.name name hints))) d = (.ok v, d) := by
  show runFrom (Evaluate.tree (Evaluate.atLevel 999) s false (.leaf (.name name hints))) d = _
  unfold Evaluate.tree
  rw [h]
  rfl

/-- A slot that has a text as its value is filled with this text, apart from backslashes before braces. -/
theorem eval_withSlot {s : Scope} {before inside after v : String} {t : Tree} {safe latex latex' : Bool}
    {d d' : Draws} (hbefore : Text.IsPlain before.toList) (hinside : Text.IsPlain inside.toList)
    (hafter : Text.IsPlain after.toList) (hread : s.tree inside = .ok (some t))
    (hvalue : runFrom (Evaluate.atLevel Evaluate.levels s t) d = (.ok (.text v safe latex'), d')) :
    runFrom (s.eval (.leaf (.text (Text.withSlot before inside after) false latex))) d =
      (.ok (.text (before ++ Text.unescapeBraces v ++ after) false latex), d') := by
  have hopen : (Text.withSlot before inside after).toList.contains '\x7b' = true := by
    rw [Text.toList_withSlot, List.contains_iff_mem]
    exact List.mem_append_right _ List.mem_cons_self
  have hfill : runFrom (s.fillSlots (Text.withSlot before inside after)) d =
      (.ok (before ++ v ++ after), d') := by
    unfold Scope.fillSlots Evaluate.fillSlots
    rw [Text.Template.ofText_withSlot hbefore hinside hafter]
    dsimp only
    rw [List.foldlM_cons, hread]
    show runFrom ((Evaluate.atLevel Evaluate.levels s t >>= _) >>= _) d = _
    rw [bind_assoc, runFrom_bind, hvalue]
    rfl
  have heval : s.eval (.leaf (.text (Text.withSlot before inside after) false latex)) =
      s.fillSlots (Text.withSlot before inside after) >>= fun filled =>
        pure (.text (Text.unescapeBraces filled) false latex) := by
    show Evaluate.text _ _ _ _ _ = _
    unfold Evaluate.text
    rw [hopen]
    rfl
  rw [heval, runFrom_bind, hfill, ← Text.unescapeBraces_append hbefore hafter]
  rfl

/-- **Inserted texts.** A variable that holds a text may stand in a slot between plain texts. The value of
the whole text is the text of the variable between these two, except that each backslash before a brace is
dropped from it: it is inserted as it is if and only if no brace in it has a backslash before it. -/
theorem eval_insertedText (s : Scope) {before inside after name v : String}
    {hints : List String} {safe latex latex' : Bool}
    (hname : Token.ofSource (Text.strip inside) = .ok [.name name hints])
    (hbefore : Text.IsPlain before.toList) (hinside : Text.IsPlain inside.toList)
    (hafter : Text.IsPlain after.toList) (hv : s.value? name = some (.text v safe latex')) (d : Draws) :
    runFrom (s.eval (.leaf (.text (Text.withSlot before inside after) false latex))) d =
        (.ok (.text (before ++ Text.unescapeBraces v ++ after) false latex), d) ∧
      (before ++ Text.unescapeBraces v ++ after = before ++ v ++ after ↔ ¬Text.EscapesBrace v.toList) := by
  refine ⟨eval_withSlot hbefore hinside hafter (s.tree_name hname) (runFrom_variable hv hints d), ?_⟩
  rw [String.append_left_inj, String.append_right_inj, Text.unescapeBraces_eq_iff]

/-- A slot in the inserted text stays, and a backslash before a brace does not. -/
theorem eval_insertedText_slot :
    runFrom ((Library.scope.child.bind "s" (.plainText "\x7bs\x7d\\\x7b")).eval
        (.leaf (.plainText (Text.withSlot "<" "s" ">")))) .default =
      (.ok (.plainText "<\x7bs\x7d\x7b>"), .default) := by
  have hname : Token.ofSource (Text.strip "s") = .ok [.name "s" []] := by decide +kernel
  have hresult : "<" ++ Text.unescapeBraces "\x7bs\x7d\\\x7b" ++ ">" = "<\x7bs\x7d\x7b>" := by
    decide +kernel
  rw [← hresult]
  exact (eval_insertedText _ hname (by decide +kernel) (by decide +kernel) (by decide +kernel)
    ((value?_bind Library.scope.child "s" "s" _).trans (if_pos rfl)) .default).1

/-- Texts are not always inserted as they are: a backslash before a brace gets lost. -/
theorem not_eval_insertedText :
    ¬∀ (s : Scope) (before after v : String) (d : Draws), Text.IsPlain before.toList →
      Text.IsPlain after.toList → s.value? "s" = some (.plainText v) →
      runFrom (s.eval (.leaf (.plainText (Text.withSlot before "s" after)))) d =
        (.ok (.plainText (before ++ v ++ after)), d) := by
  intro h
  have hname : Token.ofSource (Text.strip "s") = .ok [.name "s" []] := by decide +kernel
  have hs : Text.IsPlain "s".toList := by decide +kernel
  have hnothing : Text.IsPlain "".toList := by decide +kernel
  have hv : (Library.scope.child.bind "s" (.plainText "\\\x7b")).value? "s" = some (.plainText "\\\x7b") :=
    (value?_bind _ "s" "s" _).trans (if_pos rfl)
  have heval : runFrom ((Library.scope.child.bind "s" (.plainText "\\\x7b")).eval
      (.leaf (.plainText (Text.withSlot "" "s" "")))) .default =
        (.ok (.plainText ("" ++ Text.unescapeBraces "\\\x7b" ++ "")), .default) :=
    eval_withSlot hnothing hs hnothing (tree_name _ hname) (runFrom_variable hv [] .default)
  have hlost := heval.symm.trans (h _ "" "" _ .default hnothing hnothing hv)
  have htext : "" ++ Text.unescapeBraces "\\\x7b" ++ "" = "" ++ "\\\x7b" ++ "" := by
    injection hlost with hlost
    injection hlost with hlost
    injection hlost
  exact absurd htext (by decide +kernel)

end Scope

end MathExpr
