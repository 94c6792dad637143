import MathExpr.Proofs.Integers
import MathExpr.Proofs.Trees
import MathExpr.Rule.Apply
import Mathlib.Data.List.Forall2
import Mathlib.Tactic.SplitIfs

/-!
# Interpretations of arithmetic

A tree of numbers, names, sums, differences, products and signs can be interpreted
wherever there is something for these to stand for: in the integers, in the
floating-point numbers, or in polynomials. So can a pattern that consists of them, by
what is captured under its names. An interpretation passes to another along any function
that respects the operations (`Interpretation.Leads`), and a tree with captures filled in
is interpreted like the tree itself with the names standing for the captures
(`Tree.interpret_fill`).
-/

namespace MathExpr

/-- What numbers, names and the operators of arithmetic stand for. -/
structure Interpretation (α : Type) where
  number : Number → Option α
  name : String → Option α
  add : α → α → α
  sub : α → α → α
  mul : α → α → α
  neg : α → α

namespace Interpretation

variable {α β : Type}

/-- What an operator stands for, given its operands. -/
def operator? (I : Interpretation α) (symbol : String) : List α → Option α
  | [a] =>
    if symbol = "+u" then some a else if symbol = "-u" then some (I.neg a) else none
  | [a, b] =>
    if symbol = "+" then some (I.add a b) else if symbol = "-" then some (I.sub a b)
    else if symbol = "*" then some (I.mul a b) else none
  | _ => none

/-- The operators that stand for something. -/
def operators : List String := ["+u", "-u", "+", "-", "*"]

theorem mem_operators_of_operator? {I : Interpretation α} {symbol : String} {as : List α} {a : α}
    (h : I.operator? symbol as = some a) : symbol ∈ operators := by
  unfold operator? at h
  split at h
  · split_ifs at h with hplus hminus
    · subst hplus
      decide
    · subst hminus
      decide
  · split_ifs at h with hadd hsub hmul
    · subst hadd
      decide
    · subst hsub
      decide
    · subst hmul
      decide
  · cases h

/-- A relation between what may be stood for that the operations keep. -/
structure Comparison (I : Interpretation α) (R : α → α → Prop) : Prop where
  refl : ∀ a, R a a
  trans : ∀ a b c, R a b → R b c → R a c
  add : ∀ a a' b b', R a a' → R b b' → R (I.add a b) (I.add a' b')
  sub : ∀ a a' b b', R a a' → R b b' → R (I.sub a b) (I.sub a' b')
  mul : ∀ a a' b b', R a a' → R b b' → R (I.mul a b) (I.mul a' b')
  neg : ∀ a a', R a a' → R (I.neg a) (I.neg a')

theorem Comparison.operator? {I : Interpretation α} {R : α → α → Prop} (h : Comparison I R)
    {symbol : String} {as bs : List α} (hab : List.Forall₂ R as bs) {b : α}
    (hb : I.operator? symbol bs = some b) : ∃ a, I.operator? symbol as = some a ∧ R a b := by
  unfold Interpretation.operator? at hb ⊢
  rcases hab with _ | ⟨hfirst, _ | ⟨hsecond, _ | ⟨hthird, hrest⟩⟩⟩
  · cases hb
  · simp only at hb ⊢
    split_ifs at hb ⊢ <;> cases hb
    · exact ⟨_, rfl, hfirst⟩
    · exact ⟨_, rfl, h.neg _ _ hfirst⟩
  · simp only at hb ⊢
    split_ifs at hb ⊢ <;> cases hb
    · exact ⟨_, rfl, h.add _ _ _ _ hfirst hsecond⟩
    · exact ⟨_, rfl, h.sub _ _ _ _ hfirst hsecond⟩
    · exact ⟨_, rfl, h.mul _ _ _ _ hfirst hsecond⟩
  · cases hb

/-- Whether an operator stands for something only depends on the number of its operands. -/
theorem operator?_isSome (I : Interpretation α) (J : Interpretation β) {symbol : String}
    {as : List α} {bs : List β} (hlength : as.length = bs.length) {a : α}
    (h : I.operator? symbol as = some a) : ∃ b, J.operator? symbol bs = some b := by
  unfold operator? at h ⊢
  match as, bs with
  | [a], [b] =>
      simp only at h ⊢
      split_ifs at h ⊢ <;> exact ⟨_, rfl⟩
  | [a, a'], [b, b'] =>
      simp only at h ⊢
      split_ifs at h ⊢ <;> exact ⟨_, rfl⟩
  | [], _ => cases h
  | _ :: _ :: _ :: _, _ => cases h

/-- Integers and names stand for something, complex numbers for nothing, and equal numbers for
the same. -/
structure IsFaithful (I : Interpretation α) : Prop where
  integer : ∀ n k, n.int? = some k → ∃ a, I.number n = some a
  complex : ∀ z, I.number (.complex z) = none
  eq : ∀ m n a b, m.eq n = true → I.number m = some a → I.number n = some b → a = b
  name : ∀ key, ∃ a, I.name key = some a

/-- Operators that are looked up under the same name are the same. -/
theorem eq_of_lower_eq : ∀ s ∈ operators, ∀ s' ∈ operators, Text.lower s = Text.lower s' → s = s' := by
  decide +kernel

/-- A function leads from one interpretation to another if it respects what everything
stands for. -/
structure Leads (f : α → β) (I : Interpretation α) (J : Interpretation β) : Prop where
  number : ∀ n, J.number n = (I.number n).map f
  name : ∀ key, J.name key = (I.name key).map f
  add : ∀ a b, f (I.add a b) = J.add (f a) (f b)
  sub : ∀ a b, f (I.sub a b) = J.sub (f a) (f b)
  mul : ∀ a b, f (I.mul a b) = J.mul (f a) (f b)
  neg : ∀ a, f (I.neg a) = J.neg (f a)

theorem Leads.operator? {f : α → β} {I : Interpretation α} {J : Interpretation β}
    (h : Leads f I J) (symbol : String) (as : List α) :
    J.operator? symbol (as.map f) = (I.operator? symbol as).map f := by
  unfold Interpretation.operator?
  match as with
  | [] => rfl
  | [a] =>
      simp only [List.map_cons, List.map_nil, ← h.neg]
      split_ifs <;> rfl
  | [a, b] =>
      simp only [List.map_cons, List.map_nil, ← h.add, ← h.sub, ← h.mul]
      split_ifs <;> rfl
  | a :: b :: c :: rest => rfl

/-- A list of what stands for something, one by one. -/
theorem cons_eq_some {o : Option α} {l : Option (List α)} {as : List α} :
    (o.bind fun a => l.map (a :: ·)) = some as ↔
      ∃ a rest, o = some a ∧ l = some rest ∧ as = a :: rest := by
  rw [Option.bind_eq_some_iff]
  constructor
  · rintro ⟨a, ha, has⟩
    obtain ⟨rest, hrest, rfl⟩ := Option.map_eq_some_iff.1 has
    exact ⟨a, rest, ha, hrest, rfl⟩
  · rintro ⟨a, rest, ha, hrest, rfl⟩
    exact ⟨a, ha, by rw [hrest]; rfl⟩

end Interpretation

/-! ### Trees -/

namespace Tree

variable {α β : Type}

mutual

/-- What a tree stands for, if it consists of arithmetic. -/
def interpret (I : Interpretation α) : Tree → Option α
  | .leaf (.number n) => I.number n
  | .leaf (.name s _) => I.name (Text.lower s)
  | .leaf _ => none
  | .node (.op o) args => (interpretAll I args).bind (I.operator? o.symbol)
  | .node _ _ => none

/-- What the trees of a list stand for. -/
def interpretAll (I : Interpretation α) : List Tree → Option (List α)
  | [] => some []
  | t :: ts => (interpret I t).bind fun a => (interpretAll I ts).map (a :: ·)

end

variable {I : Interpretation α}

theorem interpretAll_cons_eq_some {t : Tree} {ts : List Tree} {as : List α} :
    interpretAll I (t :: ts) = some as ↔
      ∃ a rest, t.interpret I = some a ∧ interpretAll I ts = some rest ∧ as = a :: rest :=
  Interpretation.cons_eq_some

/-- A tree that stands for something is a number, a name, or an operator whose operands
stand for something. -/
theorem interpret_node_eq_some {h : Head} {args : List Tree} {a : α} :
    (Tree.node h args).interpret I = some a ↔
      ∃ o as, h = .op o ∧ interpretAll I args = some as ∧ I.operator? o.symbol as = some a := by
  cases h with
  | op o =>
      rw [interpret, Option.bind_eq_some_iff]
      constructor
      · rintro ⟨as, has, ha⟩
        exact ⟨o, as, rfl, has, ha⟩
      · rintro ⟨o', as, ho, has, ha⟩
        cases ho
        exact ⟨as, has, ha⟩
  | call name =>
      constructor
      · intro h
        cases h
      · rintro ⟨o, as, ho, -⟩
        cases ho
  | list =>
      constructor
      · intro h
        cases h
      · rintro ⟨o, as, ho, -⟩
        cases ho

theorem length_of_interpretAll {ts : List Tree} {as : List α} (h : interpretAll I ts = some as) :
    as.length = ts.length := by
  induction ts generalizing as with
  | nil =>
      cases h
      rfl
  | cons t ts ih =>
      obtain ⟨a, rest, -, hrest, rfl⟩ := interpretAll_cons_eq_some.1 h
      rw [List.length_cons, List.length_cons, ih hrest]

mutual

/-- What a tree stands for passes from one interpretation to another. -/
theorem interpret_map {f : α → β} {J : Interpretation β} (h : Interpretation.Leads f I J) :
    (t : Tree) → t.interpret J = (t.interpret I).map f
  | .leaf v => by
      cases v with
      | number n => exact h.number n
      | name s hints => exact h.name _
      | _ => rfl
  | .node (.op o) args => by
      rw [interpret, interpret, interpretAll_map h args]
      rcases interpretAll I args with _ | as
      · rfl
      · exact h.operator? o.symbol as
  | .node (.call name) args => rfl
  | .node .list args => rfl

theorem interpretAll_map {f : α → β} {J : Interpretation β} (h : Interpretation.Leads f I J) :
    (ts : List Tree) → interpretAll J ts = (interpretAll I ts).map (List.map f)
  | [] => rfl
  | t :: ts => by
      rw [interpretAll, interpretAll, interpret_map h t, interpretAll_map h ts]
      rcases t.interpret I with _ | a
      · rfl
      · rcases interpretAll I ts with _ | as <;> rfl

end

end Tree

/-- The interpretation in which each name stands for what it is assigned. -/
def Interpretation.assign {α : Type} (I : Interpretation α) (ρ : String → α) : Interpretation α :=
  { I with name := fun key => some (ρ key) }

/-- The interpretation in which names stand for what is captured under them. -/
def Interpretation.filled {α : Type} (I : Interpretation α) (found : Captures) : Interpretation α :=
  { I with
    name := fun key =>
      match found.find? key with
      | some u => u.interpret I
      | none => I.name key }

namespace Tree

variable {α : Type} (I : Interpretation α) (found : Captures)

mutual

/-- A tree with captures filled in stands for what the tree stands for where its names stand
for the captures. -/
theorem interpret_fill : (t : Tree) → (t.fill found).interpret I = t.interpret (I.filled found)
  | .leaf v => by
      cases v with
      | name s hints =>
          rw [fill, interpret]
          show _ = (match found.find? (Text.lower s) with
            | some u => u.interpret I
            | none => I.name (Text.lower s))
          cases found.find? (Text.lower s) <;> rfl
      | _ => rfl
  | .node (.op o) args => by
      rw [fill, interpret, interpret, interpretAll_fill args]
      rfl
  | .node (.call name) args => by
      rw [fill]
      rfl
  | .node .list args => by
      rw [fill]
      rfl

theorem interpretAll_fill :
    (ts : List Tree) → interpretAll I (fillAll found ts) = interpretAll (I.filled found) ts
  | [] => rfl
  | t :: ts => by
      rw [fillAll, interpretAll, interpretAll, interpret_fill t, interpretAll_fill ts]

end

end Tree

/-! ### Patterns -/

namespace Pattern

variable {α β : Type}

mutual

/-- What a pattern stands for, if it consists of arithmetic and names for whole trees. -/
def interpret (I : Interpretation α) : Pattern → Option α
  | .capture .anything key => I.name key
  | .literal (.number n) => I.number n
  | .node (.op o) ps => (interpretAll I ps).bind (I.operator? o.symbol)
  | _ => none

/-- What the patterns of a list stand for. -/
def interpretAll (I : Interpretation α) : List Pattern → Option (List α)
  | [] => some []
  | p :: ps => (interpret I p).bind fun a => (interpretAll I ps).map (a :: ·)

end

variable {I : Interpretation α}

theorem interpretAll_cons_eq_some {p : Pattern} {ps : List Pattern} {as : List α} :
    interpretAll I (p :: ps) = some as ↔
      ∃ a rest, p.interpret I = some a ∧ interpretAll I ps = some rest ∧ as = a :: rest :=
  Interpretation.cons_eq_some

mutual

theorem interpret_map {f : α → β} {J : Interpretation β} (h : Interpretation.Leads f I J) :
    (p : Pattern) → p.interpret J = (p.interpret I).map f
  | .capture p key => by
      cases p with
      | anything => exact h.name key
      | _ => rfl
  | .literal v => by
      cases v with
      | number n => exact h.number n
      | _ => rfl
  | .node (.op o) ps => by
      rw [interpret, interpret, interpretAll_map h ps]
      rcases interpretAll I ps with _ | as
      · rfl
      · exact h.operator? o.symbol as
  | .node (.call name) args => rfl
  | .node .list args => rfl
  | .anything | .anyMore | .ofKind _ | .anyOf _ | .allOf _ | .excluding _ | .commuting _ => rfl

theorem interpretAll_map {f : α → β} {J : Interpretation β} (h : Interpretation.Leads f I J) :
    (ps : List Pattern) → interpretAll J ps = (interpretAll I ps).map (List.map f)
  | [] => rfl
  | p :: ps => by
      rw [interpretAll, interpretAll, interpret_map h p, interpretAll_map h ps]
      rcases p.interpret I with _ | a
      · rfl
      · rcases interpretAll I ps with _ | as <;> rfl

end

end Pattern

end MathExpr
