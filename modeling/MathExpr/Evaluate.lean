import MathExpr.Evaluate.Construct
/-!
# Evaluation

The value of a tree in a scope. Arguments are evaluated from the left to the right, and the first
signature that takes them is applied; constructs get their arguments unevaluated.

Evaluation follows the structure of the tree. Where it goes on with another tree, in the body of a
custom function or in a slot of a text, it goes one level deeper; the number of levels is limited.
-/

namespace MathExpr

/-- How a tree is evaluated on the next level. -/
abbrev Evaluator := Scope → Tree → Action Value

namespace Evaluate

/-! ## Texts -/

/-- A text with its slots filled in. An empty slot is filled with nothing. -/
def fillSlots (deeper : Evaluator) (s : Scope) (text : String) : Action String :=
  let t := Text.Template.ofText text
  t.slots.foldlM (fun filled slot => do
    match ← Action.ofOutcome (s.tree slot.1) with
    | none => return filled ++ slot.2
    | some tree => return filled ++ (← Action.ofFault (Primitive.asText (← deeper s tree))) ++ slot.2)
    t.start

/-- The value of a text. -/
def text (deeper : Evaluator) (s : Scope) (content : String) (safe latex : Bool) : Action Value := do
  let content ←
    if !safe && content.toList.contains '\x7b' then fillSlots deeper s content else pure content
  return .text (Text.unescapeBraces content) safe latex

/-! ## Functions -/

/-- The scope in which the body of a custom function is evaluated. -/
def callScope (s : Scope) (parameters : List String) (args : List Value) : Scope :=
  s.child.merge { values := .ofList (parameters.zip args) }

/-- The value of a custom function, which has to be of the kind that it promises. -/
def custom (deeper : Evaluator) (s : Scope) (f : Signature) (parameters : List String)
    (result : String) (tree : Tree) (args : List Value) : Action Value := do
  let v ← deeper (callScope s parameters args) tree
  if result == "?" || result == "anything" || v.kind == result then return v
  else Action.fail (.noFittingSignature f.name v.kind)

/-- The value of a signature. A construct has no use for values. -/
def invoke (deeper : Evaluator) (s : Scope) (f : Signature) (args : List Value) : Action Value :=
  match f.body with
  | .builtin p => p.apply args
  | .construct _ => Action.breakDown .unsuitable
  | .custom parameters result tree => custom deeper s f parameters result tree args

/-- The value of a signature where a construct is expected, which hands on its arguments as they are.
Only a custom function that takes none of them can do without their values. -/
def invokeUnevaluated (deeper : Evaluator) (s : Scope) (f : Signature) (count : Nat) :
    Action Value :=
  match f.body with
  | .custom parameters result tree =>
    if parameters.isEmpty || count == 0 then custom deeper s f parameters result tree []
    else Action.breakDown .unsuitable
  | _ => Action.breakDown .unsuitable

/-- The error for a name that has no signatures. A function may be meant as a product. -/
def unknown (s : Scope) (h : Head) (name : String) : Error :=
  match h, (Text.lower name).toList with
  | .call _, _ :: rest =>
    let rest := String.ofList rest
    if !rest.isEmpty && !(s.signatures rest).isEmpty then
      .impliedProduct name (String.ofList (name.toList.take 1)) rest
    else .undefinedFunction name
  | .call _, [] => .undefinedFunction name
  | _, _ => .undefinedOperator name

/-- The error for arguments that no signature takes. -/
def noFit (name : String) (args : List Value) : Error :=
  match args.findSome? fun | .name n _ => some n | _ => none with
  | some n => .unboundArgument n
  | none => .noFittingSignature name (Primitive.kinds args)

/-- The value of an operator or function for some arguments: that of the first signature that takes
them. -/
def dispatch (deeper : Evaluator) (s : Scope) (h : Head) (name : String) (args : List Value) :
    Action Value :=
  match s.signatures name with
  | [] => Action.fail (unknown s h name)
  | fs =>
    match fs.find? fun f => f.takes args with
    | some f => invoke deeper s f args
    | none => Action.fail (noFit name args)

/-! ## Trees -/

mutual

/-- The value of a tree. A name without a value stands for itself where this is allowed. -/
def tree (deeper : Evaluator) (s : Scope) (allowUnbound : Bool) : Tree → Action Value
  | .leaf (.text content safe latex) => text deeper s content safe latex
  | .leaf (.name n hints) =>
    match s.value? n with
    | some v => return v
    | none => if allowUnbound then return .name n hints else Action.fail (.undefinedVariable n)
  | .leaf v => return v
  | .node h args =>
    match h.name? with
    | none => return .list (← trees deeper s allowUnbound args)
    | some name =>
      match h.key?.bind Construct.ofName? with
      | none => do dispatch deeper s h name (← trees deeper s allowUnbound args)
      | some _ =>
        match s.signatures name with
        | [] => Action.fail (.undefinedFunction name)
        | f :: _ =>
          match f.body with
          | .construct c => c.eval s (suspend deeper args)
          | _ => invokeUnevaluated deeper s f args.length

/-- The values of the trees of a list. -/
def trees (deeper : Evaluator) (s : Scope) (allowUnbound : Bool) :
    List Tree → Action (List Value)
  | [] => return []
  | t :: ts => return (← tree deeper s allowUnbound t) :: (← trees deeper s allowUnbound ts)

/-- The trees of a list as arguments of a construct. Names without a value are not allowed in them. -/
def suspend (deeper : Evaluator) : List Tree → List Suspended
  | [] => []
  | t :: ts => ⟨t, fun s => tree deeper s false t, parts deeper t⟩ :: suspend deeper ts

/-- The values of the arguments of a tree in a scope. -/
def parts (deeper : Evaluator) : Tree → List (Scope → Action Value)
  | .leaf _ => []
  | .node _ args => values deeper args

/-- The values of the trees of a list in a scope. -/
def values (deeper : Evaluator) : List Tree → List (Scope → Action Value)
  | [] => []
  | t :: ts => (fun s => tree deeper s false t) :: values deeper ts

end

/-- The number of levels of evaluation. -/
def levels : Nat := 1000

/-- Evaluation with a number of levels left. -/
def atLevel : Nat → Evaluator
  | 0 => fun _ _ => Action.breakDown .tooDeep
  | n + 1 => fun s t => tree (atLevel n) s false t

end Evaluate

namespace Scope

/-- The value of a tree in a scope. A name without a value is an error. -/
def eval (s : Scope) (t : Tree) : Action Value :=
  Evaluate.tree (Evaluate.atLevel Evaluate.levels) s false t

/-- The value of a tree in a scope, where a name without a value stands for itself. -/
def evalUnbound (s : Scope) (t : Tree) : Action Value :=
  Evaluate.tree (Evaluate.atLevel Evaluate.levels) s true t

/-- The text with its slots filled in. -/
def fillSlots (s : Scope) (text : String) : Action String :=
  Evaluate.fillSlots (Evaluate.atLevel Evaluate.levels) s text

/-- The value of source text in a scope with more variables. The value of the empty text is nothing. -/
def evalSource (s : Scope) (source : String) (values : Table Value) : Action (Option Value) := do
  let s := if values.entries.isEmpty then s else s.child.merge { values }
  match ← Action.ofOutcome (s.tree source) with
  | some t => return some (← s.eval t)
  | none => return none

end Scope

end MathExpr
