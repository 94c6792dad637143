import MathExpr.Display.Source
/-!
# Outlines

The shape of a tree, with indentation. A node whose arguments are all values stays on one line if that
fits; otherwise each argument has lines of its own.
-/

namespace MathExpr.Tree

/-- The longest line that a node with its arguments may fill. -/
def outlineWidth : Nat := 80

/-- The label of a tree without its arguments. -/
def label : Tree → Except Fault String
  | leaf v => v.source
  | node (.op o) _ => .ok o.symbol
  | node (.call name) _ => .ok name
  | node .list _ => .ok "list"

/-- Two blanks for each level. -/
def indentation (level : Int) : String :=
  String.ofList (List.replicate (2 * level.toNat) ' ')

mutual

/-- The outline of a tree, indented by a level. -/
def outline (level : Int) : Tree → Except Fault String
  | leaf v => return indentation level ++ (← v.source)
  | node h args => do
    let head := indentation level ++ (← label (node h args))
    if args.all isLeaf then
      let line := head ++ "(" ++ ", ".intercalate (← args.mapM label) ++ ")"
      if line.length ≤ outlineWidth then return line
    let lines ← outlines (level + 1) args
    return "\n".intercalate ((head ++ "(") :: lines ++ [indentation level ++ ")"])

/-- The outlines of the trees of a list, each followed by a comma. -/
def outlines (level : Int) : List Tree → Except Fault (List String)
  | [] => .ok []
  | t :: ts => return ((← outline level t) ++ ",") :: (← outlines level ts)

end

/-- The outline of a tree that may be empty. -/
def outline? (level : Int) : Option Tree → Except Fault String
  | none => .ok (indentation level ++ "None")
  | some t => t.outline level

end MathExpr.Tree
