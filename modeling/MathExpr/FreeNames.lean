import MathExpr.Text.Template
import MathExpr.Tree.OfTokens
/-!
# Free names

The names of a tree that it does not bind itself. The constructs `map` and `satisfy` bind names in some
of their arguments. Names in the slots of a text count, unless the text is safe.
-/

namespace MathExpr

namespace Tree

/-- The keys of the names that a tree consists of: a name, or a list literal of names, of which other
elements are left out. -/
def boundKeys (t : Tree) : List String :=
  match t.key?, t.elements? with
  | some key, _ => [key]
  | none, some items => items.filterMap key?
  | none, none => []

/-- The names that a node binds, and the number of arguments, from the first on, in which it does. -/
def binding (h : Head) (args : List Tree) : List String × Nat :=
  match h.key?, args with
  | some "map", _ :: names :: _ => (names.boundKeys, 2)
  | some "satisfy", names :: _ :: _ => (names.boundKeys, 3)
  | _, _ => ([], 0)

/-- Whether a node binds names. -/
def isBinder (h : Head) (args : List Tree) : Bool := 0 < (binding h args).2

end Tree

namespace FreeNames

/-- The names of a list followed by those of another that are new. -/
def union (names more : List String) : List String :=
  more.foldl (fun names n => if names.contains n then names else names ++ [n]) names

mutual

/-- The keys of the free names of a tree that are not in `bound`, in order of first use. `inText` gives
those of a text. -/
def ofTreeWith (inText : List String → String → Outcome (List String)) (bound : List String) :
    Tree → Outcome (List String)
  | .leaf (.name s _) =>
    let key := Text.lower s
    .ok (if bound.contains key then [] else [key])
  | .leaf (.text s safe _) => if safe then .ok [] else inText bound s
  | .leaf _ => .ok []
  | .node h args =>
    let (names, count) := Tree.binding h args
    ofTreesWith inText (names ++ bound) bound count [] args

/-- The names in `found` followed by the free names of trees that are new. The names in `inner` are bound
in the first `count` trees, those in `outer` in all others. -/
def ofTreesWith (inText : List String → String → Outcome (List String))
    (inner outer : List String) (count : Nat) (found : List String) :
    List Tree → Outcome (List String)
  | [] => .ok found
  | t :: ts => do
    let more ← ofTreeWith inText (if count = 0 then outer else inner) t
    ofTreesWith inText inner outer (count - 1) (union found more) ts

end

/-- The free names of a text, which are those of its slots. `read` gives the tree of a slot. Texts inside
slots are shorter, so that a depth of the length of the text is enough. -/
def ofTextWith (read : String → Outcome (Option Tree)) :
    Nat → List String → String → Outcome (List String)
  | 0, _, _ => .ok []
  | depth + 1, bound, s =>
    (Text.Template.ofText s).slots.foldlM (fun found slot => do
      match ← read slot.1 with
      | none => return found
      | some t => return union found (← ofTreeWith (ofTextWith read depth) bound t)) []

/-- The keys of the free names of a tree that are not in `bound`, in order of first use. `read` gives the
tree of a slot of a text. -/
def ofTree (read : String → Outcome (Option Tree)) (bound : List String) (t : Tree) :
    Outcome (List String) :=
  ofTreeWith (fun bound s => ofTextWith read (s.length + 1) bound s) bound t

/-- The free names of a tree that may be empty. -/
def ofTree? (read : String → Outcome (Option Tree)) (bound : List String) :
    Option Tree → Outcome (List String)
  | none => .ok []
  | some t => ofTree read bound t

end FreeNames

end MathExpr
