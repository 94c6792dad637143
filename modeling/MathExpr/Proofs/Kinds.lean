import MathExpr.Proofs.ClosedArithmetic
import MathExpr.Proofs.Overloads

/-!
# Kinds of trees of literals

What kind the value of a tree of integers, texts and lists is of, if it has one, can be
seen from the tree (`Tree.kind?`, `Evaluate.returns_kind`): the kinds of the operands
decide what an operator makes of them. It is a number only if the tree stands for an
integer (`Tree.exists_integer?_of_kind?`).
-/

namespace MathExpr

open MathExpr.Action (runFrom)

namespace Tree

/-- An operator with a number of operands is a sign, a sum, a difference or a product. -/
def IsArithmetic (symbol : String) (count : Nat) : Prop :=
  symbol ∈ ["+u", "-u"] ∧ count = 1 ∨ symbol ∈ ["+", "-", "*"] ∧ count = 2

instance (symbol : String) (count : Nat) : Decidable (IsArithmetic symbol count) :=
  inferInstanceAs (Decidable (_ ∨ _))

theorem isArithmetic_iff {symbol : String} {ns : List Int} :
    IsArithmetic symbol ns.length ↔
      ∃ n, (Interpretation.integers fun _ => 0).operator? symbol ns = some n := by
  constructor
  · rintro (⟨hsymbol, hlength⟩ | ⟨hsymbol, hlength⟩)
    · obtain ⟨a, rfl⟩ := List.length_eq_one_iff.1 hlength
      simp only [List.mem_cons, List.not_mem_nil, or_false] at hsymbol
      rcases hsymbol with rfl | rfl <;> exact ⟨_, rfl⟩
    · obtain ⟨a, b, rfl⟩ := List.length_eq_two.1 hlength
      simp only [List.mem_cons, List.not_mem_nil, or_false] at hsymbol
      rcases hsymbol with rfl | rfl | rfl <;> exact ⟨_, rfl⟩
  · rintro ⟨n, hn⟩
    unfold Interpretation.operator? at hn
    split at hn
    · left
      split_ifs at hn with hplus hminus
      · exact ⟨by simp [hplus], rfl⟩
      · exact ⟨by simp [hminus], rfl⟩
    · right
      split_ifs at hn with hadd hsub hmul
      · exact ⟨by simp [hadd], rfl⟩
      · exact ⟨by simp [hsub], rfl⟩
      · exact ⟨by simp [hmul], rfl⟩
    · cases hn

theorem IsArithmetic.mem_operators {symbol : String} {count : Nat} (h : IsArithmetic symbol count) :
    symbol ∈ Interpretation.operators := by
  have hsub : ∀ s ∈ ["+u", "-u"] ++ ["+", "-", "*"], s ∈ Interpretation.operators := by decide
  rcases h with ⟨h, -⟩ | ⟨h, -⟩
  · exact hsub symbol (List.mem_append_left _ h)
  · exact hsub symbol (List.mem_append_right _ h)

theorem isArithmetic_sum {o : Operator} (ho : o.symbol = "+") (x y : Tree) :
    IsArithmetic o.symbol [x, y].length :=
  .inr ⟨by rw [ho]; decide, rfl⟩

/-- The tree is built from integers, texts and lists with sums, differences, products and signs. -/
inductive OfLiterals : Tree → Prop where
  | integer {x : Float} {n : Int} (h : Real.int? x = some n) : OfLiterals (.leaf (Evaluate.number x))
  | text (content : String) (safe latex : Bool) : OfLiterals (.leaf (.text content safe latex))
  | list {args : List Tree} (h : ∀ t ∈ args, OfLiterals t) : OfLiterals (.node .list args)
  | operation {o : Operator} {args : List Tree} (ho : IsArithmetic o.symbol args.length)
      (h : ∀ t ∈ args, OfLiterals t) : OfLiterals (.node (.op o) args)

theorem OfLiterals.of_mem {h : Head} {args : List Tree} (ht : OfLiterals (.node h args)) :
    ∀ t ∈ args, t.OfLiterals := by
  cases ht with
  | list h => exact h
  | operation ho h => exact h

/-- An operator whose operands stand for integers stands for an integer. -/
theorem exists_integer?_node {o : Operator} {args : List Tree} {ns : List Int}
    (ho : IsArithmetic o.symbol args.length) (hns : List.Forall₂ (fun t n => t.integer? = some n) args ns) :
    ∃ n, (Tree.node (.op o) args).integer? = some n := by
  rw [hns.length_eq] at ho
  obtain ⟨n, hn⟩ := isArithmetic_iff.1 ho
  exact ⟨n, integer?_node_eq_some.2 ⟨o, ns, rfl, hns, hn⟩⟩

end Tree

/-! ### What operators make of kinds -/

namespace Library

/-- The kind of what an operator makes of operands of some kinds. -/
def operatorKind? (symbol : String) (kinds : List String) : Option String :=
  if ∀ k ∈ kinds, k = "number" then
    if Tree.IsArithmetic symbol kinds.length then some "number" else none
  else (overload? symbol kinds).map fun p => if p = .join then "string" else "list"

theorem operatorKind?_numbers {symbol : String} {kinds : List String} (hkinds : ∀ k ∈ kinds, k = "number")
    (h : Tree.IsArithmetic symbol kinds.length) : operatorKind? symbol kinds = some "number" := by
  unfold operatorKind?
  rw [if_pos hkinds, if_pos h]

/-- The kind of the sum of operands that are not both numbers is not that of a number. -/
theorem operatorKind?_sum {j k : String} {p : Primitive} (h : sum? j k = some p) :
    operatorKind? "+" [j, k] = some (if p = .join then "string" else "list") := by
  unfold operatorKind?
  have hmixed : ¬∀ l ∈ [j, k], l = "number" := by
    intro hall
    rw [hall j (by simp), hall k (by simp)] at h
    cases h
  rw [if_neg hmixed]
  show ((if "+" = "+" then sum? j k else none).map _ : Option String) = _
  rw [if_pos rfl, h]
  rfl

/-- What an operator makes of numbers is a number, and what it makes of others is the sum of two, a text
or a list. -/
theorem operatorKind?_cases {symbol : String} {kinds : List String} {k : String}
    (h : operatorKind? symbol kinds = some k) :
    k = "number" ∧ (∀ j ∈ kinds, j = "number") ∧ Tree.IsArithmetic symbol kinds.length ∨
      symbol = "+" ∧ ∃ i j p, kinds = [i, j] ∧ sum? i j = some p ∧
        k = if p = .join then "string" else "list" := by
  unfold operatorKind? at h
  split_ifs at h with hkinds harith
  · exact .inl ⟨(Option.some.inj h).symm, hkinds, harith⟩
  · obtain ⟨p, hp, rfl⟩ := Option.map_eq_some_iff.1 h
    unfold overload? at hp
    split at hp
    · split_ifs at hp with hsymbol
      exact .inr ⟨hsymbol, _, _, p, rfl, hp, rfl⟩
    · cases hp

end Library

namespace Tree

open Library (operatorKind? operatorKind?_cases)

mutual

/-- The kind of the value of a tree of literals, if it has one. -/
def kind? : Tree → Option String
  | .leaf (.number n) => n.int?.map fun _ => "number"
  | .leaf (.text ..) => some "string"
  | .leaf _ => none
  | .node .list args => (kinds? args).map fun _ => "list"
  | .node (.op o) args => (kinds? args).bind (operatorKind? o.symbol)
  | .node (.call _) _ => none

/-- The kinds of the values of some trees of literals. -/
def kinds? : List Tree → Option (List String)
  | [] => some []
  | t :: ts => (kind? t).bind fun k => (kinds? ts).map (k :: ·)

end

theorem kinds?_eq_some {ts : List Tree} {ks : List String} :
    kinds? ts = some ks ↔ List.Forall₂ (fun t k => t.kind? = some k) ts ks := by
  induction ts generalizing ks with
  | nil =>
      constructor
      · intro h
        cases h
        exact .nil
      · intro h
        cases h
        rfl
  | cons t ts ih =>
      rw [kinds?, Option.bind_eq_some_iff]
      constructor
      · rintro ⟨k, hk, hks⟩
        obtain ⟨rest, hrest, rfl⟩ := Option.map_eq_some_iff.1 hks
        exact .cons hk (ih.1 hrest)
      · rintro (_ | ⟨hk, hks⟩)
        exact ⟨_, hk, by rw [ih.2 hks]; rfl⟩

theorem kind?_list {args : List Tree} {k : String} :
    (Tree.node .list args).kind? = some k ↔
      k = "list" ∧ ∃ ks, List.Forall₂ (fun t k => t.kind? = some k) args ks := by
  rw [kind?, Option.map_eq_some_iff]
  constructor
  · rintro ⟨ks, hks, rfl⟩
    exact ⟨rfl, ks, kinds?_eq_some.1 hks⟩
  · rintro ⟨rfl, ks, hks⟩
    exact ⟨ks, kinds?_eq_some.2 hks, rfl⟩

theorem kind?_op {o : Operator} {args : List Tree} {k : String} :
    (Tree.node (.op o) args).kind? = some k ↔
      ∃ ks, List.Forall₂ (fun t k => t.kind? = some k) args ks ∧ operatorKind? o.symbol ks = some k := by
  rw [kind?, Option.bind_eq_some_iff]
  exact exists_congr fun ks => and_congr_left fun _ => kinds?_eq_some

/-- The arguments of a tree of literals have kinds. -/
theorem exists_kind?_of_mem {h : Head} {args : List Tree} {k : String}
    (hk : (Tree.node h args).kind? = some k) {t : Tree} (ht : t ∈ args) : ∃ j, t.kind? = some j := by
  cases h with
  | op o =>
      obtain ⟨ks, hks, -⟩ := kind?_op.1 hk
      exact exists_forall₂_iff.1 ⟨ks, hks⟩ t ht
  | list =>
      obtain ⟨-, hks⟩ := kind?_list.1 hk
      exact exists_forall₂_iff.1 hks t ht
  | call name => cases hk

/-- The kind of the sum of operands that are not both numbers. -/
theorem kind?_sum {o : Operator} {x y : Tree} {j k : String} {p : Primitive} (ho : o.symbol = "+")
    (hx : x.kind? = some j) (hy : y.kind? = some k) (hp : Library.sum? j k = some p) :
    (Tree.node (.op o) [x, y]).kind? = some (if p = .join then "string" else "list") :=
  kind?_op.2 ⟨[j, k], .cons hx (.cons hy .nil), by rw [ho, Library.operatorKind?_sum hp]⟩

theorem kinds_eq_number {ts : List Tree} {ks : List String}
    (h : List.Forall₂ (fun t k => t.kind? = some k) ts ks) (hks : ∀ k ∈ ks, k = "number") :
    ∀ t ∈ ts, t.kind? = some "number" := by
  induction h with
  | nil =>
      intro t ht
      cases ht
  | @cons t k ts ks hk _ ih =>
      intro u hu
      rcases List.mem_cons.1 hu with rfl | hu
      · rw [hk, hks k List.mem_cons_self]
      · exact ih (fun j hj => hks j (List.mem_cons_of_mem k hj)) u hu

theorem forall₂_kind_number {ts : List Tree} (h : ∀ t ∈ ts, t.kind? = some "number") :
    List.Forall₂ (fun t k => t.kind? = some k) ts (List.replicate ts.length "number") := by
  induction ts with
  | nil => exact .nil
  | cons t ts ih =>
      exact .cons (h t List.mem_cons_self) (ih fun u hu => h u (List.mem_cons_of_mem t hu))

/-- A tree whose value is a number stands for an integer. -/
theorem exists_integer?_of_kind? (t : Tree) :
    t.kind? = some "number" → ∃ n, t.integer? = some n := by
  induction t using ind with
  | leaf v =>
      intro h
      cases v with
      | number a =>
          obtain ⟨n, hn, -⟩ := Option.map_eq_some_iff.1 h
          cases a with
          | real x => exact ⟨n, (integer?_real x).trans hn⟩
          | complex z => cases hn
      | text s safe latex => simp [kind?] at h
      | _ => cases h
  | node h args ih =>
      intro hkind
      cases h with
      | op o =>
          obtain ⟨ks, hks, hk⟩ := kind?_op.1 hkind
          rcases operatorKind?_cases hk with ⟨-, hnumbers, ho⟩ | ⟨-, i, j, p, -, -, hk⟩
          · have hargs := kinds_eq_number hks hnumbers
            obtain ⟨ns, hns⟩ := exists_forall₂_iff.2 fun t ht => ih t ht (hargs t ht)
            exact exists_integer?_node (hks.length_eq ▸ ho) hns
          · split_ifs at hk <;> simp at hk
      | list =>
          obtain ⟨hlist, -⟩ := kind?_list.1 hkind
          simp at hlist
      | call name => cases hkind

/-- The value of a tree that stands for an integer is a number. -/
theorem kind?_of_integer? (t : Tree) : ∀ n, t.integer? = some n → t.kind? = some "number" := by
  induction t using ind with
  | leaf v =>
      intro n hn
      cases v with
      | number a =>
          cases a with
          | real x => exact congrArg (Option.map _) ((integer?_real x).symm.trans hn)
          | complex z => cases hn
      | _ => cases hn
  | node h args ih =>
      intro n hn
      obtain ⟨o, ns, rfl, hns, hn⟩ := integer?_node_eq_some.1 hn
      have hargs : ∀ t ∈ args, t.kind? = some "number" := fun t ht => by
        obtain ⟨k, hk⟩ := exists_forall₂_iff.1 ⟨ns, hns⟩ t ht
        exact ih t ht k hk
      refine kind?_op.2 ⟨_, forall₂_kind_number hargs, Library.operatorKind?_numbers ?_ ?_⟩
      · exact fun k hk => List.eq_of_mem_replicate hk
      · rw [List.length_replicate, hns.length_eq]
        exact isArithmetic_iff.2 ⟨n, hn⟩

/-- A tree of which the kind can be seen is built from literals. -/
theorem ofLiterals_of_kind? (t : Tree) : ∀ k, t.kind? = some k → t.OfLiterals := by
  induction t using ind with
  | leaf v =>
      intro k hk
      cases v with
      | number a =>
          obtain ⟨n, hn, -⟩ := Option.map_eq_some_iff.1 hk
          cases a with
          | real x => exact .integer hn
          | complex z => cases hn
      | text s safe latex => exact .text s safe latex
      | _ => cases hk
  | node h args ih =>
      intro k hk
      have hargs : ∀ t ∈ args, t.OfLiterals := fun t ht => by
        obtain ⟨j, hj⟩ := exists_kind?_of_mem hk ht
        exact ih t ht j hj
      cases h with
      | op o =>
          obtain ⟨ks, hks, hk⟩ := kind?_op.1 hk
          refine .operation ?_ hargs
          rw [hks.length_eq]
          rcases operatorKind?_cases hk with ⟨-, -, ho⟩ | ⟨ho, i, j, p, rfl, -⟩
          · exact ho
          · exact .inr ⟨by rw [ho]; decide, rfl⟩
      | list => exact .list hargs
      | call name => cases hk

/-- A tree of literals is a number, a text or a list. -/
theorem kind?_mem (t : Tree) {k : String} (hk : t.kind? = some k) : k ∈ ["number", "string", "list"] := by
  cases t with
  | leaf v =>
      cases v with
      | number a =>
          obtain ⟨n, -, rfl⟩ := Option.map_eq_some_iff.1 hk
          decide
      | text s safe latex =>
          cases hk
          decide
      | _ => cases hk
  | node h args =>
      cases h with
      | op o =>
          obtain ⟨ks, hks, hk⟩ := kind?_op.1 hk
          rcases operatorKind?_cases hk with ⟨rfl, -⟩ | ⟨-, i, j, p, -, -, rfl⟩
          · decide
          · split_ifs <;> decide
      | list =>
          obtain ⟨rfl, -⟩ := kind?_list.1 hk
          decide
      | call name => cases hk

end Tree

/-! ### Evaluation -/

namespace Value

/-- The kind of a sum is that which its operands make it. -/
theorem kind_of_sum? {v w a : Value} {p : Primitive} (hp : Library.sum? v.kind w.kind = some p)
    (h : p.applyPure [v, w] = .ok a) : a.kind = if p = .join then "string" else "list" := by
  rcases Library.sum?_cases hp with ⟨hv, hw, rfl⟩ | ⟨hv, hw, rfl⟩ | rfl
  · obtain ⟨vs, rfl⟩ := exists_list_of_kind hv
    obtain ⟨ws, rfl⟩ := exists_list_of_kind hw
    cases h
    rfl
  · obtain ⟨vs, rfl⟩ := exists_list_of_kind hv
    cases h
    rfl
  · obtain ⟨_, _, -, -, rfl⟩ := join_eq_ok.1 h
    rfl

theorem kind_plus {v w a : Value} (h : v.plus w = .ok a) :
    Library.operatorKind? "+" [v.kind, w.kind] = some a.kind := by
  obtain ⟨p, hp, ha⟩ := plus_eq_ok.1 h
  rw [Library.operatorKind?_sum hp, kind_of_sum? hp ha]

end Value

namespace Evaluate

variable {deeper : Evaluator} {s : Scope}

/-- The sum of values of some kinds is of the kind that these make. -/
theorem returns_sum (hs : s.HasArithmetic) {h : Head} {v w : Value} {p : Primitive}
    (hv : v.kind ∈ ["number", "string", "list"]) (hw : w.kind ∈ ["number", "string", "list"])
    (hp : Library.sum? v.kind w.kind = some p) :
    (dispatch deeper s h "+" [v, w]).Returns fun a => a.kind = if p = .join then "string" else "list" := by
  have hplus : "+" ∈ Interpretation.operators := by decide
  have hmixed : ∃ k ∈ [v.kind, w.kind], k ≠ "number" := by
    by_contra hall
    push Not at hall
    rw [hall v.kind (by simp), hall w.kind (by simp)] at hp
    cases hp
  have hkinds : [v.kind, w.kind] ∈ Library.operandKinds :=
    List.mem_flatMap.2 ⟨v.kind, hv, List.mem_cons_of_mem _ (List.mem_map.2 ⟨w.kind, hw, rfl⟩)⟩
  have hoverload : Library.overload? "+" [v.kind, w.kind] = some p := hp
  have hbody : Library.body? "+" ([v, w].map Value.kind) = some (.builtin p) := by
    rw [List.map_cons, List.map_cons, List.map_nil, Library.body?_eq_overload? hplus hkinds hmixed, hoverload]
    rfl
  rw [dispatch_of_body? hs hplus hbody, apply_of_sum? hp]
  exact fun d a d' hrun => Value.kind_of_sum? hp (congrArg Prod.fst hrun)

/-- What a tree evaluates to is of its kind. -/
theorem returns_kind (hs : s.HasArithmetic) (hnone : ∀ n, s.value? n = none) (t : Tree) :
    ∀ k, t.kind? = some k → (tree deeper s false t).Returns fun v => v.kind = k := by
  induction t using Tree.ind with
  | leaf v =>
      intro k hk
      cases v with
      | number a =>
          obtain ⟨n, -, rfl⟩ := Option.map_eq_some_iff.1 hk
          exact Action.returns_pure rfl
      | text content safe latex =>
          cases hk
          unfold tree text
          dsimp only
          split
          · exact Action.returns_bind (Action.returns_true _) fun _ _ => Action.returns_pure rfl
          · exact Action.returns_pure rfl
      | _ => cases hk
  | node h args ih =>
      intro k hk
      cases h with
      | op o =>
          obtain ⟨ks, hks, hk'⟩ := Tree.kind?_op.1 hk
          rcases Library.operatorKind?_cases hk' with ⟨rfl, -⟩ | ⟨ho, i, j, p, rfl, hp, rfl⟩
          · obtain ⟨n, hn⟩ := Tree.exists_integer?_of_kind? _ hk
            intro d v d' hrun
            obtain ⟨x, -, rfl⟩ := returns_arithmetic hs hnone Interpretation.isFaithful_closedIntegers _ _
              (Tree.integer?_eq_some.1 hn) d v d' hrun
            rfl
          · rcases hks with _ | @⟨x, _, _, _, hx, _ | @⟨y, _, _, _, hy, _ | _⟩⟩
            rw [tree_op (by rw [ho]; decide +kernel), ho]
            unfold trees
            simp only [bind_assoc, pure_bind]
            refine Action.returns_bind (ih x List.mem_cons_self i hx) fun v hv => ?_
            unfold trees trees
            simp only [bind_assoc, pure_bind]
            refine Action.returns_bind (ih y (List.mem_cons_of_mem x List.mem_cons_self) j hy) fun w hw => ?_
            subst hv hw
            exact returns_sum hs (Tree.kind?_mem x hx) (Tree.kind?_mem y hy) hp
      | list =>
          obtain ⟨rfl, -⟩ := Tree.kind?_list.1 hk
          exact Action.returns_bind (Action.returns_true _) fun _ _ => Action.returns_pure rfl
      | call name => cases hk

end Evaluate

end MathExpr
