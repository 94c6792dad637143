import MathExpr.Text.Quoted
/-!
# Templates

A text may have slots, which are written in braces. Braces inside a slot nest; a brace after a backslash
is only a character. An opening brace without its closing brace is a character like any other, and so is
the rest of the text.
-/

namespace MathExpr.Text

/-- A text with slots: the text before the first slot, and the slots, each with the text after it. -/
structure Template where
  start : String
  slots : List (String × String)
  deriving DecidableEq, Repr

namespace Template

/-- The inside of a slot and what follows it, where `depth` braces have been opened inside the slot. -/
def slot (depth : Nat) : List Char → Option (List Char × List Char)
  | [] => none
  | c :: rest =>
    if c = '\\' ∧ rest.head?.any isBrace then
      match rest with
      | d :: rest => (slot depth rest).map fun r => (c :: d :: r.1, r.2)
      | [] => none
    else if c = '\x7b' then (slot (depth + 1) rest).map fun r => (c :: r.1, r.2)
    else if c = '\x7d' then
      match depth with
      | 0 => some ([], rest)
      | depth + 1 => (slot depth rest).map fun r => (c :: r.1, r.2)
    else (slot depth rest).map fun r => (c :: r.1, r.2)

/-- What follows a slot is shorter than what the slot is read from. -/
theorem length_slot {depth : Nat} {cs : List Char} {r : List Char × List Char}
    (h : slot depth cs = some r) : r.2.length < cs.length := by
  fun_induction slot depth cs generalizing r with
  | case1 => cases h
  | case2 depth c d rest hc ih | case4 depth rest hc ih | case6 rest _ _ depth ih
  | case7 depth c rest _ _ _ ih =>
    obtain ⟨x, hx, rfl⟩ := Option.map_eq_some_iff.1 h
    have := ih hx
    simp
    omega
  | case3 => cases h
  | case5 rest =>
    cases h
    simp

/-- The text before the first slot and the slots, each with the text after it, on lists of characters.
The characters of `plain` have been read already. -/
def split (plain : List Char) (cs : List Char) :
    List Char × List (List Char × List Char) :=
  match cs with
  | [] => (plain, [])
  | c :: rest =>
    if c = '\\' ∧ rest.head?.any isBrace then
      match rest with
      | d :: rest => split (plain ++ [d]) rest
      | [] => (plain, [])
    else if c = '\x7b' then
      match _h : slot 0 rest with
      | some r =>
        let after := split [] r.2
        (plain, (r.1, after.1) :: after.2)
      | none => (plain ++ c :: rest, [])
    else split (plain ++ [c]) rest
termination_by cs.length
decreasing_by
  · simp only [List.length_cons]
    omega
  · have := length_slot _h
    simp only [List.length_cons]
    omega
  · simp

/-- The template that a text is. -/
def ofText (s : String) : Template :=
  let t := split [] s.toList
  ⟨String.ofList t.1, t.2.map fun r => (String.ofList r.1, String.ofList r.2)⟩

/-- The plain texts and the slots, in turn. -/
def pieces (t : Template) : List String :=
  t.start :: t.slots.flatMap fun r => [r.1, r.2]

end Template

end MathExpr.Text
