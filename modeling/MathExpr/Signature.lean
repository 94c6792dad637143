import MathExpr.Library.Primitive
/-!
# Signatures

A function or operator has any number of signatures. A signature says which arguments it takes and what
is done with them: a built-in operation, a construct that evaluates its own arguments, or a tree in
which the arguments have names. Each signature has a serial number, by which it is told from all others
and by which the signatures of one name are put in order.
-/

namespace MathExpr

/-- What a signature asks for: one argument of a kind, or that all further arguments are of a kind. The
kind `?` is every kind. -/
inductive ArgumentType where
  | one (kind : String)
  | rest (kind : String)
  deriving DecidableEq, Repr

namespace ArgumentType

/-- A kind with a star before it asks for all further arguments. -/
def ofText (s : String) : ArgumentType :=
  match s.toList with
  | '*' :: kind => rest (String.ofList kind)
  | _ => one s

/-- The kind that is asked for, with dots after it if it is asked of all further arguments. -/
def text : ArgumentType → String
  | one kind => kind
  | rest kind => kind ++ "..."

/-- Whether an argument of kind `actual` may stand where kind `expected` is asked for. -/
def accepts (expected actual : String) : Bool :=
  expected == "?" || actual == "?" || expected == actual

/-- Whether arguments of some kinds are all taken by a list of argument types. -/
def fit : List ArgumentType → List String → Bool
  | [], kinds => kinds.isEmpty
  | rest kind :: types, kinds => kinds.all (accepts kind) && fit types []
  | one _ :: _, [] => false
  | one kind :: types, k :: kinds => accepts kind k && fit types kinds

/-- A list of argument types, as messages show it. -/
def listText (types : List ArgumentType) : String :=
  "(" ++ ", ".intercalate (types.map text) ++ ")"

end ArgumentType

/-- The constructs that evaluate their own arguments. -/
inductive Construct where
  | conditional
  | cases
  | repetition
  | map
  | isa
  | satisfy
  deriving DecidableEq, Repr

namespace Construct

/-- The constructs. -/
def all : List Construct := [conditional, cases, repetition, map, isa, satisfy]

/-- The name under which a construct is called. -/
def name : Construct → String
  | conditional => "if"
  | cases => "switch"
  | repetition => "repeat"
  | map => "map"
  | isa => "isa"
  | satisfy => "satisfy"

/-- The construct with a name. -/
def ofName? (s : String) : Option Construct :=
  all.find? fun c => c.name == s

end Construct

/-- What a signature does with its arguments. `custom` names them and evaluates a tree, whose value has
to be of kind `result`. -/
inductive Body where
  | builtin (p : Primitive)
  | construct (c : Construct)
  | custom (parameters : List String) (result : String) (tree : Tree)

/-- A signature. -/
structure Signature where
  serial : Nat
  name : String
  arguments : List ArgumentType
  body : Body

namespace Signature

/-- Whether a signature takes a list of arguments. -/
def takes (f : Signature) (args : List Value) : Bool :=
  ArgumentType.fit f.arguments (args.map Value.kind)

/-- Whether a list holds a signature, by serial number. -/
def isIn (f : Signature) (fs : List Signature) : Bool :=
  fs.any fun g => g.serial == f.serial

/-- Signatures in order of their serial numbers. -/
def inOrder (fs : List Signature) : List Signature :=
  fs.mergeSort fun f g => f.serial ≤ g.serial

/-- The signatures of two lists in order of their serial numbers, without those of the second that the
first holds. -/
def merge (fs gs : List Signature) : List Signature :=
  inOrder (fs ++ gs.filter fun g => !g.isIn fs)

end Signature

end MathExpr
