/-!
# Quoted text

A text is written between double quotes. A backslash is doubled, except before a brace, where it stands
for itself; new lines and quotes are written with a backslash.
-/

namespace MathExpr.Text

/-- Whether a character is a brace. -/
def isBrace (c : Char) : Bool := c == '\x7b' || c == '\x7d'

/-- The inside of a quoted text. -/
def escapeChars : List Char → List Char
  | [] => []
  | c :: rest =>
    (if c = '\\' then if rest.head?.any isBrace then ['\\'] else ['\\', '\\']
     else if c = '\n' then ['\\', 'n']
     else if c = '\x22' then ['\\', '\x22']
     else [c]) ++ escapeChars rest

/-- A text between double quotes. -/
def quote (s : String) : String :=
  String.ofList ('\x22' :: escapeChars s.toList ++ ['\x22'])

/-- The text with the backslash before each brace removed, on lists of characters. -/
def unescapeBraceChars : List Char → List Char
  | [] => []
  | c :: rest =>
    if c = '\\' ∧ rest.head?.any isBrace then unescapeBraceChars rest
    else c :: unescapeBraceChars rest

/-- The text with the backslash before each brace removed. -/
def unescapeBraces (s : String) : String :=
  String.ofList (unescapeBraceChars s.toList)

end MathExpr.Text
