import MathExpr.Proofs.BuiltIn
import MathExpr.Proofs.Meaning

/-!
# Evaluating arithmetic

Where the built-in arithmetic comes first (`Scope.HasArithmetic`) and no name has a value,
a tree of arithmetic evaluates to the floating-point number that its operators make of
its numbers, or it has no value (`Evaluate.returns_arithmetic`).
-/

namespace MathExpr

open MathExpr.Action (runFrom)

/-- Numbers that are real stand for themselves, and names for nothing. -/
def Interpretation.floats : Interpretation Float where
  number
    | .real x => some x
    | .complex _ => none
  name _ := none
  add := (· + ·)
  sub := (· - ·)
  mul := (· * ·)
  neg := (- ·)

/-- The floating-point number that a tree of arithmetic without names comes to. -/
def Tree.float? (t : Tree) : Option Float := t.interpret .floats

/-- The signatures of the operators of arithmetic begin with the built-in ones. -/
def Scope.HasArithmetic (s : Scope) : Prop :=
  ∀ symbol ∈ Interpretation.operators, Library.scope.signatures symbol <+: s.signatures symbol

/-! ### Operators -/

namespace Library

/-- The built-in operations on numbers, by operator and number of operands. -/
def arithmetic? (symbol : String) (count : Nat) : Option Primitive :=
  match count with
  | 1 => [("+u", .same), ("-u", .negate)].lookup symbol
  | 2 => [("+", .add), ("-", .subtract), ("*", .multiply)].lookup symbol
  | _ => none

/-- The first built-in signature of an operator that takes a number of numbers. -/
def arithmeticBody? (symbol : String) (count : Nat) : Option Body :=
  ((signatures.filter fun f => Text.lower symbol == Text.lower f.name).find? fun f =>
    ArgumentType.fit f.arguments (List.replicate count "number")).map Signature.body

/-- Whether the built-in signature of an operator stands for its arithmetic. -/
def hasArithmeticBody (symbol : String) (count : Nat) : Bool :=
  match arithmetic? symbol count, arithmeticBody? symbol count with
  | some p, some (.builtin q) => p == q
  | some _, _ => false
  | none, _ => true

/-- Of numbers, the operators are the built-in operations. -/
theorem arithmeticBody?_eq {symbol : String} (hsymbol : symbol ∈ Interpretation.operators)
    {count : Nat} {p : Primitive} (hp : arithmetic? symbol count = some p) :
    arithmeticBody? symbol count = some (.builtin p) := by
  have hall : (Interpretation.operators.all fun symbol =>
      [1, 2].all (hasArithmeticBody symbol)) = true := by decide +kernel
  have hcount : count ∈ [1, 2] := by
    unfold arithmetic? at hp
    split at hp
    · exact List.mem_cons_self
    · exact List.mem_cons_of_mem _ List.mem_cons_self
    · cases hp
  have hbody := List.all_eq_true.1 (List.all_eq_true.1 hall symbol hsymbol) count hcount
  unfold hasArithmeticBody at hbody
  rw [hp] at hbody
  split at hbody
  · rename_i q q' hq hq'
    cases hq
    rw [hq', beq_iff_eq.1 hbody]
  · cases hbody
  · rename_i hnone
    cases hnone

/-- The built-in scope has the built-in arithmetic. -/
theorem hasArithmetic_scope : scope.withoutVariables.HasArithmetic := by
  intro symbol _
  have hsignatures : scope.withoutVariables.signatures symbol =
      scope.signatures symbol := by
    show (scope.child.functions.find? (Text.lower symbol)).getD [] = _
    rw [child_scope]
    rfl
  exact ⟨[], by rw [List.append_nil, hsignatures]⟩

end Library

namespace Evaluate

variable {deeper : Evaluator} {s : Scope} {α : Type} {I : Interpretation α}

/-- A number as a value. -/
abbrev number (x : Float) : Value := .number (.real x)

theorem kind_number (xs : List Float) :
    (xs.map number).map Value.kind = List.replicate xs.length "number" := by
  induction xs with
  | nil => rfl
  | cons x xs ih => exact congrArg ("number" :: ·) ih

/-- An operator that is given numbers is the built-in operation. -/
theorem dispatch_number (hs : s.HasArithmetic) {symbol : String}
    (hsymbol : symbol ∈ Interpretation.operators) (h : Head) (xs : List Float)
    {p : Primitive} (hp : Library.arithmetic? symbol xs.length = some p) :
    dispatch deeper s h symbol (xs.map number) = p.apply (xs.map number) := by
  have hbody := Library.arithmeticBody?_eq hsymbol hp
  obtain ⟨f, hfind, hbuiltin⟩ := Option.map_eq_some_iff.1 hbody
  obtain ⟨more, hmore⟩ := hs symbol hsymbol
  have htakes : (s.signatures symbol).find? (fun f => f.takes (xs.map number)) = some f := by
    unfold Signature.takes
    rw [kind_number, ← hmore, List.find?_append, Library.signatures_scope, hfind]
    rfl
  unfold dispatch
  cases hfs : s.signatures symbol with
  | nil =>
      rw [hfs] at htakes
      cases htakes
  | cons g gs =>
      rw [hfs] at htakes
      simp only [htakes]
      unfold invoke
      rw [hbuiltin]

/-- Operators of arithmetic give the numbers that they stand for. -/
theorem dispatch_arithmetic (hs : s.HasArithmetic) {symbol : String} (h : Head) {xs : List Float}
    {x : Float} (hx : Interpretation.floats.operator? symbol xs = some x) :
    dispatch deeper s h symbol (xs.map number) = pure (number x) := by
  have hsymbol := Interpretation.mem_operators_of_operator? hx
  unfold Interpretation.operator? at hx
  split at hx
  · rename_i a
    split at hx
    · cases hx
      subst symbol
      exact dispatch_number hs hsymbol h [x] rfl
    · split at hx
      · cases hx
        subst symbol
        exact dispatch_number hs hsymbol h [a] rfl
      · cases hx
  · rename_i a b
    split at hx
    · cases hx
      subst symbol
      exact dispatch_number hs hsymbol h [a, b] rfl
    · split at hx
      · cases hx
        subst symbol
        exact dispatch_number hs hsymbol h [a, b] rfl
      · split at hx
        · cases hx
          subst symbol
          exact dispatch_number hs hsymbol h [a, b] rfl
        · cases hx
  · cases hx

/-- The operators of arithmetic are no constructs. -/
theorem ofName?_operators :
    ∀ symbol ∈ Interpretation.operators, Construct.ofName? (Text.lower symbol) = none := by
  decide +kernel

mutual

/-- Where no name has a value, the value of a tree of arithmetic is the number that it comes
to. -/
theorem returns_arithmetic (hs : s.HasArithmetic) (hnone : ∀ n, s.value? n = none)
    (hI : I.IsFaithful) : (t : Tree) → ∀ a, t.interpret I = some a →
      (tree deeper s false t).Returns fun v => ∃ x, t.float? = some x ∧ v = number x
  | .leaf v, a, ht => by
      cases v with
      | number n =>
          cases n with
          | real x => exact Action.returns_pure ⟨x, rfl, rfl⟩
          | complex z =>
              change I.number _ = some a at ht
              rw [hI.complex] at ht
              cases ht
      | name k hints =>
          intro d v d' hrun
          unfold tree at hrun
          rw [hnone] at hrun
          cases hrun
      | _ => cases ht
  | .node h args, a, ht => by
      obtain ⟨o, as, rfl, has, ha⟩ := Tree.interpret_node_eq_some.1 ht
      have hsymbol := Interpretation.mem_operators_of_operator? ha
      have hname : (Head.op o).key?.bind Construct.ofName? = none := ofName?_operators _ hsymbol
      unfold tree
      simp only [Head.name?, hname]
      refine Action.returns_bind (returns_arithmeticAll hs hnone hI args as has) fun vs hvs => ?_
      obtain ⟨xs, hxs, rfl⟩ := hvs
      have hlength : as.length = xs.length :=
        (Tree.length_of_interpretAll has).trans (Tree.length_of_interpretAll hxs).symm
      obtain ⟨x, hx⟩ := Interpretation.operator?_isSome _ .floats hlength ha
      rw [dispatch_arithmetic hs _ hx]
      exact Action.returns_pure ⟨x, Tree.interpret_node_eq_some.2 ⟨o, xs, rfl, hxs, hx⟩, rfl⟩

theorem returns_arithmeticAll (hs : s.HasArithmetic) (hnone : ∀ n, s.value? n = none)
    (hI : I.IsFaithful) : (ts : List Tree) → ∀ as, Tree.interpretAll I ts = some as →
      (trees deeper s false ts).Returns fun vs =>
        ∃ xs, Tree.interpretAll .floats ts = some xs ∧ vs = xs.map number
  | [], as, has => Action.returns_pure ⟨[], rfl, rfl⟩
  | t :: ts, as, has => by
      obtain ⟨a, as', ha, has', rfl⟩ := Tree.interpretAll_cons_eq_some.1 has
      unfold trees
      refine Action.returns_bind (returns_arithmetic hs hnone hI t a ha) fun v hv => ?_
      refine Action.returns_bind (returns_arithmeticAll hs hnone hI ts as' has') fun vs hvs => ?_
      obtain ⟨x, hx, rfl⟩ := hv
      obtain ⟨xs, hxs, rfl⟩ := hvs
      refine Action.returns_pure ⟨x :: xs, ?_, rfl⟩
      exact Tree.interpretAll_cons_eq_some.2 ⟨x, xs, hx, hxs, rfl⟩

end

end Evaluate

end MathExpr
