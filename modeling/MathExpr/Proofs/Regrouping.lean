import MathExpr.Proofs.Kinds

/-!
# Simplifying sums of lists and texts

The built-in rules for sums and products are made for numbers, but they match operands of
all kinds, and `+` also appends lists and joins texts. Simplification keeps the value of a
tree of literals as long as only two things are done on the way
(`Simplify.IsSafeWay`): parts that are numbers are rewritten, and `x + (y + z)` becomes
`(x + y) + z` where the kinds of the operands allow it.
-/

namespace MathExpr

open MathExpr.Action (runFrom runFrom_bind)

/-! ### One run after another -/

namespace Action

variable {α β γ δ : Type}

/-- Two actions succeed one after the other if both do. -/
theorem runFrom_bind_eq_ok {x : Action α} {f : α → Action β} {d d' : Draws} {b : β} :
    runFrom (x >>= f) d = (.ok b, d') ↔
      ∃ a d'', runFrom x d = (.ok a, d'') ∧ runFrom (f a) d'' = (.ok b, d') := by
  rw [runFrom_bind]
  rcases runFrom x d with ⟨_ | a, d''⟩
  · constructor
    · intro h
      cases h
    · rintro ⟨_, _, h, -⟩
      cases h
  · constructor
    · exact fun h => ⟨a, d'', rfl, h⟩
    · rintro ⟨_, _, h, hf⟩
      cases h
      exact hf

/-- Wherever the first action succeeds, the second does, drawing the same numbers, and the results are
related. -/
def Follows (R : α → β → Prop) (x : Action α) (y : Action β) : Prop :=
  ∀ d a d', runFrom x d = (.ok a, d') → ∃ b, runFrom y d = (.ok b, d') ∧ R a b

theorem follows_pure {R : α → β → Prop} {a : α} {b : β} (h : R a b) :
    Follows R (pure a) (pure b) := by
  intro d c d' hrun
  cases hrun
  exact ⟨b, rfl, h⟩

theorem follows_bind {R : α → β → Prop} {S : γ → δ → Prop} {x : Action α} {y : Action β}
    {f : α → Action γ} {g : β → Action δ} (h : Follows R x y)
    (hfg : ∀ a b, R a b → Follows S (f a) (g b)) : Follows S (x >>= f) (y >>= g) := by
  intro d c d' hrun
  obtain ⟨a, d'', hx, hf⟩ := runFrom_bind_eq_ok.1 hrun
  obtain ⟨b, hy, hab⟩ := h d a d'' hx
  obtain ⟨c', hg, hcc⟩ := hfg a b hab d'' c d' hf
  exact ⟨c', runFrom_bind_eq_ok.2 ⟨b, d'', hy, hg⟩, hcc⟩

/-- What the first action gives may be used. -/
theorem Follows.and_returns {R : α → β → Prop} {P : α → Prop} {x : Action α} {y : Action β}
    (h : Follows R x y) (hP : x.Returns P) : Follows (fun a b => R a b ∧ P a) x y := by
  intro d a d' hrun
  obtain ⟨b, hy, hab⟩ := h d a d' hrun
  exact ⟨b, hy, hab, hP d a d' hrun⟩

theorem follows_self {P : α → Prop} {R : α → α → Prop} {x : Action α} (hP : x.Returns P)
    (hR : ∀ a, P a → R a a) : Follows R x x :=
  fun d a d' hrun => ⟨a, hrun, hR a (hP d a d' hrun)⟩

theorem Follows.trans {R : α → β → Prop} {S : β → γ → Prop} {T : α → γ → Prop} {x : Action α}
    {y : Action β} {z : Action γ} (h : Follows R x y) (h' : Follows S y z)
    (hT : ∀ a b c, R a b → S b c → T a c) : Follows T x z := by
  intro d a d' hrun
  obtain ⟨b, hy, hab⟩ := h d a d' hrun
  obtain ⟨c, hz, hbc⟩ := h' d b d' hy
  exact ⟨c, hz, hT a b c hab hbc⟩

end Action

/-! ### Evaluation -/

namespace Tree

open Value (contents? SameContent SameContents)

variable {deeper : Evaluator} {t u : Tree}

/-- A tree that stands for an integer evaluates to it. -/
theorem eval_of_integer? {n : Int} (hn : t.integer? = some n) (hsmall : t.StaysSmall) :
    ∃ x, Library.scope.eval t = pure (Evaluate.number x) ∧ Real.int? x = some n :=
  Evaluate.tree_of_integer? Library.hasArithmetic hn hsmall

/-- A value is made of integers, texts and lists, and it is of the kind of a tree. -/
def Denotes (t : Tree) (v : Value) : Prop := ∃ c, v.content? = some c ∧ t.kind? = some v.kind

theorem contents?_of_denotes {ts : List Tree} {vs : List Value} (h : List.Forall₂ Denotes ts vs) :
    ∃ cs, contents? vs = some cs := by
  induction h with
  | nil => exact ⟨[], rfl⟩
  | cons hv _ ih =>
      obtain ⟨c, hc, -⟩ := hv
      obtain ⟨cs, hcs⟩ := ih
      exact ⟨c :: cs, Value.contents?_cons_eq_some.2 ⟨c, cs, hc, hcs, rfl⟩⟩

theorem kinds_of_denotes {ts : List Tree} {vs : List Value} (h : List.Forall₂ Denotes ts vs) :
    List.Forall₂ (fun t k => t.kind? = some k) ts (vs.map Value.kind) := by
  induction h with
  | nil => exact .nil
  | cons hv _ ih =>
      obtain ⟨_, -, hkind⟩ := hv
      exact .cons hkind ih

/-- Where a node does not stand for an integer, its operands are not all numbers. -/
theorem mixed_of_denotes {o : Operator} {args : List Tree} (ho : IsArithmetic o.symbol args.length)
    (hint : ∀ n, (Tree.node (.op o) args).integer? ≠ some n) {vs : List Value}
    (h : List.Forall₂ Denotes args vs) : ∃ v ∈ vs, v.kind ≠ "number" := by
  by_contra hall
  push Not at hall
  have hargs := kinds_eq_number (kinds_of_denotes h) (List.forall_mem_map.2 hall)
  obtain ⟨ns, hns⟩ := exists_forall₂_iff.2 fun t ht => exists_integer?_of_kind? t (hargs t ht)
  obtain ⟨n, hn⟩ := exists_integer?_node ho hns
  exact hint n hn

/-- The values of some trees in the built-in scope. -/
abbrev evalAll (ts : List Tree) : Action (List Value) :=
  Evaluate.trees (Evaluate.atLevel Evaluate.levels) Library.scope false ts

theorem returns_evalAll {P : Tree → Value → Prop} {ts : List Tree}
    (h : ∀ t ∈ ts, (Library.scope.eval t).Returns (P t)) :
    (evalAll ts).Returns (List.Forall₂ P ts) := by
  induction ts with
  | nil => exact Action.returns_pure .nil
  | cons t ts ih =>
      refine Action.returns_bind (h t List.mem_cons_self) fun v hv => ?_
      refine Action.returns_bind (ih fun u hu => h u (List.mem_cons_of_mem t hu)) fun vs hvs => ?_
      exact Action.returns_pure (.cons hv hvs)

theorem eval_op {o : Operator} {args : List Tree} (ho : IsArithmetic o.symbol args.length) :
    Library.scope.eval (.node (.op o) args) = (do
      let vs ← evalAll args
      Evaluate.dispatch (Evaluate.atLevel Evaluate.levels) Library.scope (.op o) o.symbol vs) :=
  Evaluate.tree_op (Evaluate.ofName?_operators _ ho.mem_operators) false args

theorem length_operands {o : Operator} {args : List Tree} (ho : IsArithmetic o.symbol args.length)
    {vs : List Value} (h : List.Forall₂ Denotes args vs) : vs.length = 1 ∨ vs.length = 2 := by
  rw [← h.length_eq]
  rcases ho with ⟨-, h⟩ | ⟨-, h⟩
  · exact .inl h
  · exact .inr h

/-- The value of a tree of literals is made of integers, texts and lists, and it is of the kind of the
tree. -/
theorem returns_denotes (ht : t.OfLiterals) (hsmall : t.StaysSmall) :
    (Library.scope.eval t).Returns t.Denotes := by
  induction ht with
  | @integer x n h =>
      exact Action.returns_pure
        ⟨.integer n, congrArg (Option.map _) h, kind?_of_integer? _ n ((integer?_real x).trans h)⟩
  | text content safe latex =>
      have hdenotes : ∀ s : String, Denotes (.leaf (.text content safe latex)) (.text s safe latex) :=
        fun s => ⟨.text s, rfl, rfl⟩
      unfold Scope.eval Evaluate.tree Evaluate.text
      dsimp only
      split
      · exact Action.returns_bind (Action.returns_true _) fun s _ => Action.returns_pure (hdenotes _)
      · exact Action.returns_pure (hdenotes _)
  | @list args h ih =>
      refine Action.returns_bind (returns_evalAll fun t ht => ih t ht (hsmall.of_mem ht)) fun vs hvs => ?_
      obtain ⟨cs, hcs⟩ := contents?_of_denotes hvs
      exact Action.returns_pure
        ⟨.list cs, congrArg (Option.map _) hcs, kind?_list.2 ⟨rfl, _, kinds_of_denotes hvs⟩⟩
  | @operation o args ho h ih =>
      by_cases hint : ∃ n, (Tree.node (.op o) args).integer? = some n
      · obtain ⟨n, hn⟩ := hint
        obtain ⟨x, heval, hx⟩ := eval_of_integer? hn hsmall
        rw [heval]
        exact Action.returns_pure ⟨.integer n, congrArg (Option.map _) hx, kind?_of_integer? _ n hn⟩
      · rw [eval_op ho]
        refine Action.returns_bind (returns_evalAll fun t ht => ih t ht (hsmall.of_mem ht)) fun vs hvs => ?_
        intro d a d' hrun
        obtain ⟨cs, hcs⟩ := contents?_of_denotes hvs
        have hmixed := mixed_of_denotes ho (not_exists.1 hint) hvs
        obtain ⟨hsymbol, -, v, w, b, c, rfl, hb, hc, hplus⟩ :=
          Evaluate.plus_of_dispatch ho.mem_operators hcs (length_operands ho hvs) hmixed hrun
        obtain ⟨_, -, ⟨e, he, -⟩, -⟩ := Value.plus_congr ⟨b, hb, hb⟩ ⟨c, hc, hc⟩ hplus
        refine ⟨e, he, kind?_op.2 ⟨_, kinds_of_denotes hvs, ?_⟩⟩
        rw [hsymbol]
        exact Value.kind_plus hplus

/-! ### Regrouping -/

/-- `x + (y + z)` is replaced by `(x + y) + z`, where operands of these kinds may be grouped in either
way. -/
inductive Regroups : Tree → Tree → Prop where
  | intro {o o' p p' : Operator} {x y z : Tree} {j k l : String} (ho : o.symbol = "+")
      (ho' : o'.symbol = "+") (hp : p.symbol = "+") (hp' : p'.symbol = "+") (hx : x.kind? = some j)
      (hy : y.kind? = some k) (hz : z.kind? = some l) (hgroups : Value.groups j k l = true) :
      Regroups (.node (.op o) [x, .node (.op o') [y, z]]) (.node (.op p) [.node (.op p') [x, y], z])

/-- A sum is evaluated if its operands are, one after the other. -/
theorem runFrom_eval_sum {o : Operator} (ho : o.symbol = "+") (x y : Tree) {d d' : Draws} {a : Value} :
    runFrom (Library.scope.eval (.node (.op o) [x, y])) d = (.ok a, d') ↔
      ∃ v d₁, runFrom (Library.scope.eval x) d = (.ok v, d₁) ∧
        ∃ w d₂, runFrom (Library.scope.eval y) d₁ = (.ok w, d₂) ∧
          runFrom (Evaluate.dispatch (Evaluate.atLevel Evaluate.levels) Library.scope (.op o) "+" [v, w])
            d₂ = (.ok a, d') := by
  have htrees : evalAll [x, y] =
      (do return (← Library.scope.eval x) :: (← (do return (← Library.scope.eval y) :: (← pure [])))) := rfl
  rw [eval_op (isArithmetic_sum ho x y), ho, htrees]
  simp only [pure_bind, bind_assoc]
  rw [Action.runFrom_bind_eq_ok]
  refine exists_congr fun v => exists_congr fun d₁ => and_congr_right fun _ => ?_
  rw [Action.runFrom_bind_eq_ok]

/-- Where a sum is regrouped, its value stays the same. -/
theorem Regroups.follows (h : Regroups t u) (ht : t.OfLiterals) (hsmall : t.StaysSmall) :
    (Library.scope.eval t).Follows Eq (Library.scope.eval u) := by
  cases h with
  | @intro o o' p p' x y z j k l ho ho' hp hp' hx hy hz hgroups =>
      intro d a d' hrun
      obtain ⟨u, d₁, hu, s, d₂, hs, ha⟩ := (runFrom_eval_sum ho _ _).1 hrun
      obtain ⟨v, d₃, hv, w, d₄, hw, hs⟩ := (runFrom_eval_sum ho' _ _).1 hs
      have hyz := ht.of_mem _ (List.mem_cons_of_mem _ List.mem_cons_self)
      have hyzsmall := hsmall.of_mem (List.mem_cons_of_mem _ List.mem_cons_self)
      obtain ⟨b, hb, hukind⟩ := returns_denotes (ht.of_mem _ List.mem_cons_self)
        (hsmall.of_mem List.mem_cons_self) d u d₁ hu
      obtain ⟨c, hc, hvkind⟩ := returns_denotes (hyz.of_mem _ List.mem_cons_self)
        (hyzsmall.of_mem List.mem_cons_self) d₁ v d₃ hv
      obtain ⟨e, he, hwkind⟩ := returns_denotes (hyz.of_mem _ (List.mem_cons_of_mem _ List.mem_cons_self))
        (hyzsmall.of_mem (List.mem_cons_of_mem _ List.mem_cons_self)) d₃ w d₄ hw
      rw [Option.some.inj (hx.symm.trans hukind), Option.some.inj (hy.symm.trans hvkind),
        Option.some.inj (hz.symm.trans hwkind)] at hgroups
      obtain ⟨hmixed, hmixed'⟩ := Value.not_numbers_of_groups hgroups
      obtain ⟨hvw, rfl⟩ := (Evaluate.dispatch_sum hc he hmixed').1 hs
      obtain ⟨_, -, ⟨f, hf, -⟩, hskind⟩ := Value.plus_congr ⟨c, hc, hc⟩ ⟨e, he, he⟩ hvw
      obtain ⟨huvw, rfl⟩ := (Evaluate.dispatch_sum hb hf fun h => hskind h.2).1 ha
      obtain ⟨r, hr, hra⟩ := Value.plus_assoc hb hc he hgroups hvw huvw
      obtain ⟨_, -, ⟨g, hg, -⟩, hrkind⟩ := Value.plus_congr ⟨b, hb, hb⟩ ⟨c, hc, hc⟩ hr
      refine ⟨a, (runFrom_eval_sum hp _ _).2 ⟨r, d₃, ?_, w, d', hw, ?_⟩, rfl⟩
      · refine (runFrom_eval_sum hp' _ _).2 ⟨u, d₁, hu, v, d₃, hv, ?_⟩
        exact (Evaluate.dispatch_sum hb hc hmixed).2 ⟨hr, rfl⟩
      · exact (Evaluate.dispatch_sum hg he fun h => hrkind h.1).2 ⟨hra, rfl⟩

/-- What is regrouped is a tree of literals. -/
theorem Regroups.ofLiterals (h : Regroups t u) : u.OfLiterals := by
  cases h with
  | @intro o o' p p' x y z j k l ho ho' hp hp' hx hy hz hgroups =>
      refine .operation (isArithmetic_sum hp _ _) fun t ht => ?_
      rcases List.mem_pair.1 ht with rfl | rfl
      · refine .operation (isArithmetic_sum hp' _ _) fun t ht => ?_
        rcases List.mem_pair.1 ht with rfl | rfl
        · exact ofLiterals_of_kind? t j hx
        · exact ofLiterals_of_kind? t k hy
      · exact ofLiterals_of_kind? t l hz

/-- The second tree evaluates to what is made of the same as the value of the first. -/
def KeepsContent (t u : Tree) : Prop :=
  (Library.scope.eval t).Follows SameContent (Library.scope.eval u)

theorem KeepsContent.refl (ht : t.OfLiterals) (hsmall : t.StaysSmall) : t.KeepsContent t :=
  Action.follows_self (returns_denotes ht hsmall) fun _ ⟨c, hc, _⟩ => ⟨c, hc, hc⟩

theorem KeepsContent.trans {w : Tree} (h : t.KeepsContent u) (h' : u.KeepsContent w) :
    t.KeepsContent w := by
  refine Action.Follows.trans h h' fun a b c hab hbc => ?_
  obtain ⟨d, ha, hb⟩ := hab
  obtain ⟨e, hb', hc⟩ := hbc
  rw [hb, Option.some.injEq] at hb'
  exact ⟨d, ha, hb' ▸ hc⟩

theorem Regroups.keepsContent (h : Regroups t u) (ht : t.OfLiterals) (hsmall : t.StaysSmall) :
    t.KeepsContent u :=
  Action.Follows.trans (KeepsContent.refl ht hsmall) (h.follows ht hsmall) fun _ _ _ hab hbc => hbc ▸ hab

/-- Trees that stand for the same integer evaluate to the same. -/
theorem keepsContent_of_integer? {n : Int} (ht : t.integer? = some n) (htsmall : t.StaysSmall)
    (hu : u.integer? = some n) (husmall : u.StaysSmall) : t.KeepsContent u := by
  obtain ⟨x, hevalt, hx⟩ := eval_of_integer? ht htsmall
  obtain ⟨y, hevalu, hy⟩ := eval_of_integer? hu husmall
  unfold KeepsContent
  rw [hevalt, hevalu]
  exact Action.follows_pure
    ⟨.integer n, congrArg (Option.map _) hx, congrArg (Option.map _) hy⟩

theorem follows_evalAll {ts us : List Tree} (h : List.Forall₂ KeepsContent ts us) :
    (evalAll ts).Follows SameContents (evalAll us) := by
  induction h with
  | nil => exact Action.follows_pure ⟨[], rfl, rfl⟩
  | cons htu _ ih =>
      refine Action.follows_bind htu fun v v' hv => Action.follows_bind ih fun vs vs' hvs => ?_
      obtain ⟨c, hc, hc'⟩ := hv
      obtain ⟨cs, hcs, hcs'⟩ := hvs
      exact Action.follows_pure ⟨c :: cs, Value.contents?_cons_eq_some.2 ⟨c, cs, hc, hcs, rfl⟩,
        Value.contents?_cons_eq_some.2 ⟨c, cs, hc', hcs', rfl⟩⟩

/-- A node that does not stand for an integer keeps its content if its arguments do. -/
theorem keepsContent_node {h : Head} {ts us : List Tree} (ht : OfLiterals (.node h ts))
    (hsmall : StaysSmall (.node h ts)) (hint : ∀ n, (Tree.node h ts).integer? ≠ some n)
    (htu : List.Forall₂ KeepsContent ts us) : KeepsContent (.node h ts) (.node h us) := by
  have hfollows := (follows_evalAll htu).and_returns
    (returns_evalAll fun t htmem => returns_denotes (ht.of_mem t htmem) (hsmall.of_mem htmem))
  cases ht with
  | list hts =>
      refine Action.follows_bind hfollows fun vs ws hvs => ?_
      obtain ⟨⟨cs, hcs, hcs'⟩, -⟩ := hvs
      exact Action.follows_pure
        ⟨.list cs, congrArg (Option.map _) hcs, congrArg (Option.map _) hcs'⟩
  | @operation o _ ho hts =>
      unfold KeepsContent
      rw [eval_op ho, eval_op (htu.length_eq ▸ ho)]
      refine Action.follows_bind hfollows fun vs ws hvs => ?_
      obtain ⟨⟨cs, hcs, hcs'⟩, hdenotes⟩ := hvs
      intro d a d' hrun
      have hmixed := mixed_of_denotes ho hint hdenotes
      obtain ⟨hplus, rfl, v, w, b, c, rfl, hb, hc, ha⟩ :=
        Evaluate.plus_of_dispatch ho.mem_operators hcs (length_operands ho hdenotes) hmixed hrun
      have hbc : contents? [v, w] = some [b, c] := Value.contents?_cons_eq_some.2
        ⟨b, [c], hb, Value.contents?_cons_eq_some.2 ⟨c, [], hc, rfl, rfl⟩, rfl⟩
      rw [← hcs, hbc] at hcs'
      obtain ⟨v', _, rfl, hb', hcs'⟩ := Value.exists_of_contents?_cons hcs'
      obtain ⟨w', _, rfl, hc', hcs'⟩ := Value.exists_of_contents?_cons hcs'
      rw [Value.eq_nil_of_contents? hcs', hplus]
      obtain ⟨r, hr, hsame, -⟩ := Value.plus_congr ⟨b, hb, hb'⟩ ⟨c, hc, hc'⟩ ha
      refine ⟨r, (Evaluate.dispatch_sum hb' hc' fun hkinds => ?_).2 ⟨hr, rfl⟩, hsame⟩
      rw [Value.kind_of_content? hb', Value.kind_of_content? hc', ← Value.kind_of_content? hb,
        ← Value.kind_of_content? hc] at hkinds
      obtain ⟨u, hu, hne⟩ := hmixed
      rcases List.mem_pair.1 hu with rfl | rfl
      · exact hne hkinds.1
      · exact hne hkinds.2

end Tree

/-! ### Simplification -/

namespace Simplify

variable {rules : List Rule} {s : Scope} {v v' t u : Tree}

theorem forall₂_replace {α β : Type} {P : α → β → Prop} {a a' : α} (h : ∀ b, P a b → P a' b)
    {before after : List α} : ∀ {bs : List β}, List.Forall₂ P (before ++ a :: after) bs →
      List.Forall₂ P (before ++ a' :: after) bs := by
  induction before with
  | nil => rintro _ (_ | ⟨hb, hrest⟩); exact .cons (h _ hb) hrest
  | cons _ _ ih => rintro _ (_ | ⟨hb, hrest⟩); exact .cons hb (ih hrest)

/-- A firing that keeps the integer of the part that it replaces keeps that of the tree. -/
theorem FiresAt.integer?_tree (h : FiresAt s rules v v' t u)
    (hkeeps : ∀ n, v.integer? = some n → v'.integer? = some n) :
    ∀ n, t.integer? = some n → u.integer? = some n := by
  induction h with
  | head _ _ _ _ => exact hkeeps
  | @argument h before after t u _ ih =>
      intro n hn
      obtain ⟨o, ns, rfl, hns, hn⟩ := Tree.integer?_node_eq_some.1 hn
      exact Tree.integer?_node_eq_some.2 ⟨o, ns, rfl, forall₂_replace ih hns, hn⟩

/-- What may be done at a part of a tree without a change of its value, whatever its operators are
overloaded with. -/
def IsSafe (v v' : Tree) : Prop := (∃ n, v.integer? = some n) ∨ v.Regroups v'

/-- On the way from one tree to another only integers up to `2 ^ 53` in magnitude are met, and whatever is
done is safe. -/
structure IsSafeWay (s : Scope) (rules : List Rule) (t u : Tree) : Prop where
  small : ∀ w, Proceeds s rules t w → Proceeds s rules w u → w.StaysSmall
  safe : ∀ v v' w w', Proceeds s rules t w → FiresAt s rules v v' w w' → Proceeds s rules w' u →
    IsSafe v v'

/-- In parts that stand for integers up to `2 ^ 53` in magnitude, the rules only calculate such integers. -/
def CalculateSmall (rules : List Rule) : Prop :=
  ∀ v : Tree, v.StaysSmall → ∀ n, v.integer? = some n → Evaluates Tree.StaysSmall rules v

variable (hs : s.HasArithmetic) (hnone : ∀ n, s.value? n = none)
  (hrules : ∀ r ∈ rules, r ∈ Library.polynomialRules) (hcalculate : CalculateSmall rules)
include hs hnone hrules hcalculate

/-- A firing that is safe keeps trees of literals, and what they evaluate to. -/
theorem FiresAt.keepsContent (h : FiresAt s rules v v' t u) (ht : t.OfLiterals) (htsmall : t.StaysSmall)
    (husmall : u.StaysSmall) (hsafe : IsSafe v v') :
    u.OfLiterals ∧ t.KeepsContent u := by
  have hvsmall : v.StaysSmall := fun w hw => htsmall w (Tree.subtrees_trans h.mem_subtrees.1 hw)
  have hinteger : ∀ n, v.integer? = some n → v'.integer? = some n := fun n hn =>
    h.integer?_eq hs hnone hrules (hcalculate v hvsmall n hn) hn
  induction h with
  | head _ _ _ _ =>
      rcases hsafe with ⟨n, hn⟩ | hregroups
      · exact ⟨Tree.ofLiterals_of_kind? _ _ (Tree.kind?_of_integer? _ n (hinteger n hn)),
          Tree.keepsContent_of_integer? hn htsmall (hinteger n hn) husmall⟩
      · exact ⟨hregroups.ofLiterals, hregroups.keepsContent ht htsmall⟩
  | @argument h before after t u hfires ih =>
      have hmem : ∀ w, w ∈ before ++ w :: after := fun w =>
        List.mem_append_right before List.mem_cons_self
      obtain ⟨hu, htu⟩ := ih (ht.of_mem t (hmem t)) (htsmall.of_mem (hmem t)) (husmall.of_mem (hmem u))
      have hothers : ∀ w, w ∈ before ∨ w ∈ after → w ∈ before ++ t :: after := fun w hw =>
        List.mem_append.2 (hw.imp_right (List.mem_cons_of_mem t))
      have hliterals : ∀ w ∈ before ++ u :: after, w.OfLiterals := by
        intro w hw
        rcases List.mem_append.1 hw with hw | hw
        · exact ht.of_mem w (hothers w (.inl hw))
        · rcases List.mem_cons.1 hw with rfl | hw
          · exact hu
          · exact ht.of_mem w (hothers w (.inr hw))
      have hkeeps : ∀ w, w ∈ before ∨ w ∈ after → w.KeepsContent w := fun w hw =>
        .refl (ht.of_mem w (hothers w hw)) (htsmall.of_mem (hothers w hw))
      refine ⟨?_, ?_⟩
      · cases ht with
        | list _ => exact .list hliterals
        | operation ho _ => exact .operation (by simpa using ho) hliterals
      · by_cases hint : ∃ n, (Tree.node h (before ++ t :: after)).integer? = some n
        · obtain ⟨n, hn⟩ := hint
          have hun := (hfires.argument h before after).integer?_tree hinteger n hn
          exact Tree.keepsContent_of_integer? hn htsmall hun husmall
        · refine Tree.keepsContent_node ht htsmall (not_exists.1 hint) ?_
          exact List.rel_append (List.forall₂_same.2 fun w hw => hkeeps w (.inl hw))
            (.cons htu (List.forall₂_same.2 fun w hw => hkeeps w (.inr hw)))

/-- Firings that are safe keep trees of literals, and what they evaluate to. -/
theorem Proceeds.keepsContent (h : Proceeds s rules t u) (hway : IsSafeWay s rules t u)
    (ht : t.OfLiterals) : u.OfLiterals ∧ t.KeepsContent u := by
  induction h with
  | refl => exact ⟨ht, .refl ht (hway.small t .refl .refl)⟩
  | @tail v w htv hstep ih =>
      have hvw : Proceeds s rules v w := .single hstep
      obtain ⟨hv, hkeeps⟩ := ih
        ⟨fun x htx hxv => hway.small x htx (hxv.trans hvw),
          fun x x' y y' hty hfires hyv => hway.safe x x' y y' hty hfires (hyv.trans hvw)⟩
      obtain ⟨x, x', hfires⟩ := hstep
      obtain ⟨hw, hkeeps'⟩ := hfires.keepsContent hs hnone hrules hcalculate hv (hway.small v htv hvw)
        (hway.small w (htv.trans hvw) .refl) (hway.safe x x' v w htv hfires .refl)
      exact ⟨hw, hkeeps.trans hkeeps'⟩

end Simplify

end MathExpr
