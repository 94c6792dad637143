import MathExpr.Token.Basic

/-!
# Scanning

What a text is cut into, lexeme by lexeme.
-/

namespace MathExpr.Lexeme

theorem scan_nil : scan [] = .ok [] := by rw [scan]

theorem scan_of_isSkipped {c : Char} (cs : List Char) (hc : isSkipped c = true) :
    scan (c :: cs) = scan cs := by
  rw [scan, if_pos hc]

/-- Where a text starts with a lexeme, scanning goes on behind it. -/
theorem scan_of_recognise {c : Char} (cs rest : List Char) {l : Lexeme}
    (hc : isSkipped c = false) (h : recognise (c :: cs ++ rest) = some (some l, cs.length + 1)) :
    scan (c :: cs ++ rest) = (scan rest).map (l :: ·) := by
  rw [List.cons_append] at h ⊢
  rw [scan, if_neg (by rw [hc]; exact Bool.false_ne_true), h]
  change (scan ((cs ++ rest).drop cs.length)).map (l :: ·) = _
  rw [List.drop_left]

end MathExpr.Lexeme
