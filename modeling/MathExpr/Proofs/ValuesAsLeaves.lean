import MathExpr.Evaluate
import MathExpr.Library.Scope
import MathExpr.Proofs.Leaves
import Mathlib.Data.List.Basic

/-!
# Values as leaves

The value of a tree may be put into a tree again, as a leaf. Most values are values of themselves there. A
name is not: its value is that of the variable. A text may be none, either, because evaluation does not
mark the texts that it gives: the braces in them are those of slots, unless the text is marked as safe, and
a backslash before a brace is dropped once more.

Apart from names and slots, a value stands for itself if and only if no brace in it has a backslash
(`Scope.eval_leaf_value_iff`).
-/

namespace MathExpr

/-! ### Texts without slots -/

namespace Text

theorem length_unescapeBraceChars (cs : List Char) : (unescapeBraceChars cs).length ≤ cs.length := by
  induction cs with
  | nil => exact Nat.le_refl 0
  | cons c rest ih =>
      rw [unescapeBraceChars]
      split
      · exact Nat.le_succ_of_le ih
      · exact Nat.succ_le_succ ih

theorem Template.split_without_slots (plain cs : List Char) (h : (Template.split plain cs).2 = []) :
    (Template.split plain cs).1 = plain ++ cs ∨
      (Template.split plain cs).1.length < (plain ++ cs).length ∧ unescapeBraceChars cs ≠ cs := by
  fun_induction Template.split plain cs with
  | case1 plain => exact .inl (List.append_nil plain).symm
  | case2 plain c d rest hc ih =>
      refine .inr ⟨?_, ?_⟩
      · have hle : (Template.split (plain ++ [d]) rest).1.length ≤ (plain ++ [d] ++ rest).length := by
          rcases ih h with heq | ⟨hlt, -⟩
          · exact Nat.le_of_eq (congrArg List.length heq)
          · exact Nat.le_of_lt hlt
        simp only [List.length_append, List.length_cons, List.length_nil] at hle ⊢
        omega
      · intro heq
        rw [unescapeBraceChars, if_pos hc] at heq
        have hle := length_unescapeBraceChars (d :: rest)
        rw [heq] at hle
        exact absurd hle (Nat.not_succ_le_self _)
  | case3 plain c hc => cases hc.2
  | case4 => cases h
  | case5 plain rest hc hslot => exact .inl rfl
  | case6 plain c rest hc hbrace ih =>
      rcases ih h with heq | ⟨hlt, hne⟩
      · exact .inl (by rw [heq, List.append_assoc]; rfl)
      · refine .inr ⟨by rwa [List.append_assoc] at hlt, ?_⟩
        rw [unescapeBraceChars, if_neg hc]
        exact fun heq => hne (List.cons.inj heq).2

/-- Filling in no slots only drops backslashes before braces. -/
theorem Template.unescapeBraces_start {s : String} (h : (Template.ofText s).slots = []) :
    unescapeBraces (Template.ofText s).start = s ↔ unescapeBraces s = s := by
  have hslots : (Template.split [] s.toList).2 = [] := List.map_eq_nil_iff.1 h
  have hchars {t : String} : unescapeBraces t = s ↔ unescapeBraceChars t.toList = s.toList := by
    unfold unescapeBraces
    rw [← String.toList_inj, String.toList_ofList]
  have hstart : (Template.ofText s).start.toList = (Template.split [] s.toList).1 := String.toList_ofList
  rw [hchars, hchars, hstart]
  rcases Template.split_without_slots [] s.toList hslots with heq | ⟨hlt, hne⟩
  · rw [heq, List.nil_append]
  · refine iff_of_false (fun heq => ?_) hne
    have hle := length_unescapeBraceChars (Template.split [] s.toList).1
    rw [heq] at hle
    exact absurd hlt (Nat.not_lt.2 hle)

end Text

/-! ### Leaves -/

namespace Value

/-- Whether a text has a slot, which is filled in when the text is evaluated. -/
def hasSlot : Value → Bool
  | .text content false _ => !(Text.Template.ofText content).slots.isEmpty
  | _ => false

/-- Whether a brace in a text has a backslash before it. -/
def hasEscapedBrace : Value → Bool
  | .text content _ _ => Text.unescapeBraces content != content
  | _ => false

end Value

namespace Evaluate

/-- The value of a leaf without a slot. -/
theorem tree_leaf_of_hasSlot (deeper : Evaluator) (s : Scope) {v : Value}
    (hname : ∀ n hints, v ≠ .name n hints) (hslot : v.hasSlot = false) :
    ∃ w, tree deeper s false (.leaf v) = pure w ∧ (w = v ↔ v.hasEscapedBrace = false) := by
  have hfixed {content filled : String} (safe latex : Bool)
      (h : Text.unescapeBraces filled = content ↔ Text.unescapeBraces content = content) :
      Value.text (Text.unescapeBraces filled) safe latex = .text content safe latex ↔
        Value.hasEscapedBrace (.text content safe latex) = false := by
    unfold Value.hasEscapedBrace
    rw [Value.text.injEq, bne_eq_false_iff_eq, h]
    exact and_iff_left ⟨rfl, rfl⟩
  cases v with
  | name n hints => exact absurd rfl (hname n hints)
  | text content safe latex =>
      cases safe with
      | true => exact ⟨_, rfl, hfixed true latex Iff.rfl⟩
      | false =>
          have hslots : (Text.Template.ofText content).slots = [] := by
            unfold Value.hasSlot at hslot
            rwa [Bool.not_eq_false', List.isEmpty_iff] at hslot
          unfold tree text
          split
          · unfold fillSlots
            dsimp only
            rw [hslots, List.foldlM_nil]
            exact ⟨_, rfl, hfixed false latex (Text.Template.unescapeBraces_start hslots)⟩
          · exact ⟨_, rfl, hfixed false latex Iff.rfl⟩
  | _ => exact ⟨_, rfl, iff_of_true rfl rfl⟩

end Evaluate

namespace Scope

open MathExpr.Action

/-- **Values as leaves.** If the value of a tree is neither a name nor a text with a slot, then evaluating
it again, as a leaf, gives a value as well, which is the same if and only if no brace in it has a backslash
before it. -/
theorem eval_leaf_value_iff (s : Scope) (t : Tree) {d d' : Draws} {v : Value}
    (h : runFrom (s.eval t) d = (.ok v, d')) (hname : ∀ n hints, v ≠ .name n hints)
    (hslot : v.hasSlot = false) :
    ∃ w, runFrom (s.eval t >>= fun v => s.eval (.leaf v)) d = (.ok w, d') ∧
      (w = v ↔ v.hasEscapedBrace = false) := by
  obtain ⟨w, hw, hiff⟩ := Evaluate.tree_leaf_of_hasSlot (Evaluate.atLevel Evaluate.levels) s hname hslot
  refine ⟨w, ?_, hiff⟩
  rw [runFrom_bind, h]
  show runFrom (s.eval (.leaf v)) d' = _
  rw [eval, hw]
  rfl

theorem eval_leaf_value_iff_safe :
    runFrom (Library.scope.eval (.leaf (.text "\x7bb\x7d" true false))) .default =
        (.ok (.text "\x7bb\x7d" true false), .default) ∧
      Value.hasSlot (.text "\x7bb\x7d" true false) = false ∧
      ∃ w, runFrom (Library.scope.eval (.leaf (.text "\x7bb\x7d" true false)) >>= fun v =>
          Library.scope.eval (.leaf v)) .default = (.ok w, .default) ∧
        (w = .text "\x7bb\x7d" true false ↔
          Value.hasEscapedBrace (.text "\x7bb\x7d" true false) = false) := by
  have hvalue : runFrom (Library.scope.eval (.leaf (.text "\x7bb\x7d" true false))) .default =
      (.ok (.text "\x7bb\x7d" true false), .default) := by
    have htext : Text.unescapeBraces "\x7bb\x7d" = "\x7bb\x7d" := by decide +kernel
    exact congrArg (fun content => ((.ok (.text content true false), .default) :
      Except Failure Value × Draws)) htext
  exact ⟨hvalue, rfl, eval_leaf_value_iff _ _ hvalue (by rintro n hints ⟨⟩) rfl⟩

/-- A text in which braces have backslashes has a slot in its value, so that the value of its value is
another text. -/
theorem eval_leaf_escapedSlot (d : Draws) :
    runFrom (Library.scope.eval (.leaf (.text "\\\x7btrue\\\x7d" false false))) d =
        (.ok (.text "\x7btrue\x7d" false false), d) ∧
      runFrom (Library.scope.eval (.leaf (.text "\x7btrue\x7d" false false))) d =
        (.ok (.text "true" false false), d) := by
  have hescaped : Text.Template.ofText "\\\x7btrue\\\x7d" = ⟨"\x7btrue\x7d", []⟩ := by decide +kernel
  have hslot : Text.Template.ofText "\x7btrue\x7d" = ⟨"", [("true", "")]⟩ := by decide +kernel
  have hread : Library.scope.tree "true" = .ok (some (.leaf (.boolean true))) := by
    have hts : Token.ofSource (Text.strip "true") = .ok [.boolean true] := by decide +kernel
    rw [Scope.tree_eq_ofTokens hts (by decide +kernel)]
    rfl
  have hopen : Text.unescapeBraces "\x7btrue\x7d" = "\x7btrue\x7d" := by decide +kernel
  have hplain : Text.unescapeBraces "true" = "true" := by decide +kernel
  have heval (content : String) (hbrace : content.toList.contains '\x7b' = true) :
      Library.scope.eval (.leaf (.text content false false)) =
        Library.scope.fillSlots content >>= fun filled => pure (.text (Text.unescapeBraces filled) false false) := by
    show Evaluate.text _ _ _ _ _ = _
    unfold Evaluate.text
    rw [hbrace]
    rfl
  constructor
  · rw [heval _ (by decide +kernel), Scope.fillSlots, Evaluate.fillSlots, hescaped]
    show (Except.ok (Value.text (Text.unescapeBraces "\x7btrue\x7d") false false), d) = _
    rw [hopen]
  · rw [heval _ (by decide +kernel), Scope.fillSlots, Evaluate.fillSlots, hslot]
    dsimp only
    simp only [List.foldlM_cons, List.foldlM_nil]
    rw [hread]
    show (Except.ok (Value.text (Text.unescapeBraces ("" ++ "true" ++ "")) false false), d) = _
    rw [String.empty_append, String.append_empty, hplain]

/-- Values do not always stand for themselves. -/
theorem not_eval_leaf_value :
    ¬∀ (s : Scope) (t : Tree) (d d' : Draws) (v : Value), runFrom (s.eval t) d = (.ok v, d') →
      ∃ w, runFrom (s.eval (.leaf v)) d' = (.ok w, d') ∧ v.eqv w = true := by
  intro h
  obtain ⟨hvalue, hagain⟩ := eval_leaf_escapedSlot .default
  obtain ⟨w, hw, heqv⟩ := h _ _ _ _ _ hvalue
  rw [hagain] at hw
  cases hw
  exact absurd heqv (by decide +kernel)

end Scope

end MathExpr
