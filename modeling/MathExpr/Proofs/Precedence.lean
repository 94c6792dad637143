import MathExpr.Proofs.Frames

/-!
# Arrangement by precedence

A sequence of values with operators between them and signs before them, without brackets,
is always arranged into a tree (`OperatorSequence.ofTokens_precedence`). Read in order the
tree is the sequence, and every operator is applied to operands that bind as tightly as
its precedence and associativity ask for (`Tree.OperandsFit`).

The proof follows the operators that wait. They lie in such an order that each of them may
be applied before the one below it (`Frame.Ordered`), since an operator only comes to lie
on those that do not yield to it.
-/

namespace MathExpr

/-! ### Operators -/

namespace Operator

/-- An operator that is written between its two operands. -/
def IsBinary (o : Operator) : Prop := o.place = .between ∧ arity o.symbol = 2

/-- A sign, which is written before its operand. -/
def IsLeadingSign (o : Operator) : Prop := o.place = .before ∧ isSign o.symbol = true

theorem symbol_of_isSign {symbol : String} (h : isSign symbol = true) :
    symbol ∈ ["+u", "-u", "not"] :=
  List.contains_iff_mem.1 h

theorem arity_of_isSign {symbol : String} (h : isSign symbol = true) : arity symbol = 1 := by
  have hmem := symbol_of_isSign h
  simp only [List.mem_cons, List.not_mem_nil, or_false] at hmem
  rcases hmem with rfl | rfl | rfl <;> rfl

/-- Of the operators with two operands only the power is right-associative. -/
theorem eq_power_of_isRightAssociative {symbol : String} (harity : arity symbol = 2)
    (h : isRightAssociative symbol = true) : symbol = "^" := by
  have hmem : symbol ∈ ["^", "+u", "-u"] := List.contains_iff_mem.1 h
  simp only [List.mem_cons, List.not_mem_nil, or_false] at hmem
  rcases hmem with rfl | rfl | rfl
  · rfl
  · cases harity
  · cases harity

/-- Nothing else binds as tightly as the power. -/
theorem eq_power_of_precedence {symbol : String} (h : precedence symbol = precedence "^") :
    symbol = "^" := by
  have hpower : precedence "^" = 4 := rfl
  rw [hpower, precedence] at h
  cases hlookup : precedences.lookup symbol with
  | none =>
      rw [hlookup] at h
      cases h
  | some p =>
      rw [hlookup] at h
      obtain ⟨before, after, heq, -⟩ := List.lookup_eq_some_iff.1 hlookup
      have hmem : (symbol, p) ∈ precedences := by simp [heq]
      have hall : ∀ e ∈ precedences, e.2 = 4 → e.1 = "^" := by decide
      exact hall _ hmem h

end Operator

/-! ### Trees whose operands fit -/

namespace Tree

/-- The operator that a tree applies last. -/
def operator? : Tree → Option Operator
  | node (.op o) _ => some o
  | _ => none

/-- The operands of the operator of a tree bind tightly enough: more tightly than the
operator, or as tightly on the side on which it associates. An operand that is a sign with
its operand may stand on the right whatever its precedence. -/
def OperandsFit : Tree → Prop
  | node (.op o) [l, r] =>
    (∀ o', l.operator? = some o' →
      Operator.precedence o'.symbol < Operator.precedence o.symbol ∨
        Operator.precedence o'.symbol = Operator.precedence o.symbol ∧
          Operator.isRightAssociative o.symbol = false) ∧
    (∀ o', r.operator? = some o' → o'.place = .between →
      Operator.precedence o'.symbol < Operator.precedence o.symbol ∨
        Operator.precedence o'.symbol = Operator.precedence o.symbol ∧
          Operator.isRightAssociative o.symbol = true)
  | node (.op o) [t] =>
    ∀ o', t.operator? = some o' → o'.place = .between →
      Operator.precedence o'.symbol < Operator.precedence o.symbol
  | _ => True

/-- The operands fit everywhere in a tree. -/
def FitsThroughout (t : Tree) : Prop := ∀ u ∈ t.subtrees, u.OperandsFit

theorem fitsThroughout_leaf (v : Value) : (leaf v).FitsThroughout := by
  intro u hu
  rw [subtrees, List.mem_singleton] at hu
  rw [hu]
  trivial

theorem fitsThroughout_unary {h : Head} {t : Tree} (ht : t.FitsThroughout)
    (hnode : (node h [t]).OperandsFit) : (node h [t]).FitsThroughout := by
  intro u hu
  simp only [subtrees, subtreesOf, List.append_nil, List.mem_cons] at hu
  rcases hu with rfl | hu
  · exact hnode
  · exact ht u hu

theorem fitsThroughout_binary {h : Head} {l r : Tree} (hl : l.FitsThroughout)
    (hr : r.FitsThroughout) (hnode : (node h [l, r]).OperandsFit) :
    (node h [l, r]).FitsThroughout := by
  intro u hu
  simp only [subtrees, subtreesOf, List.append_nil, List.mem_cons, List.mem_append] at hu
  rcases hu with rfl | hu | hu
  · exact hnode
  · exact hl u hu
  · exact hr u hu

end Tree

/-! ### The order of the operators that wait -/

namespace Arrangement

theorem yieldsTo_iff {new waiting : Operator} :
    yieldsTo new waiting = true ↔
      Operator.precedence waiting.symbol < Operator.precedence new.symbol ∨
        Operator.precedence waiting.symbol = Operator.precedence new.symbol ∧
          Operator.isRightAssociative new.symbol = false := by
  simp [yieldsTo, @eq_comm _ (Operator.precedence new.symbol)]

/-- An operator of two operands that is applied before the one on which it lies binds more
tightly, or both are powers. -/
theorem precedence_of_not_yieldsTo {new waiting : Operator} (hnew : Operator.arity new.symbol = 2)
    (h : yieldsTo new waiting = false) :
    Operator.precedence new.symbol < Operator.precedence waiting.symbol ∨
      new.symbol = "^" ∧ waiting.symbol = "^" := by
  rcases Nat.lt_trichotomy (Operator.precedence new.symbol) (Operator.precedence waiting.symbol)
    with hlt | heq | hgt
  · exact .inl hlt
  · have hright : Operator.isRightAssociative new.symbol = true := by
      refine (Bool.eq_false_or_eq_true _).resolve_right fun hleft => ?_
      rw [yieldsTo_iff.2 (.inr ⟨heq.symm, hleft⟩)] at h
      cases h
    have hpower := Operator.eq_power_of_isRightAssociative hnew hright
    refine .inr ⟨hpower, Operator.eq_power_of_precedence ?_⟩
    rw [← heq, hpower]
  · rw [yieldsTo_iff.2 (.inl hgt)] at h
    cases h

end Arrangement

namespace Frame

open Arrangement (yieldsTo)

/-- A new operator, if it has two operands, does not yield to the one that waits in the
innermost frame. -/
def StaysAbove (o : Operator) (fs : List Frame) : Prop :=
  ∀ f ∈ fs.head?, ∀ w, f.operator? = some w → yieldsTo o w = false

/-- Signs and operators between operands wait, each operator above one that it does not
yield to and with a fitting operand on its left. -/
inductive Ordered : List Frame → Prop
  | nil : Ordered []
  | before {o : Operator} {fs : List Frame} (ho : o.IsLeadingSign) (hfs : Ordered fs) :
      Ordered (before o :: fs)
  | between {o : Operator} {l : Tree} {fs : List Frame} (ho : o.IsBinary) (hfs : Ordered fs)
      (hstays : StaysAbove o fs) (hl : l.FitsThroughout)
      (hleft : ∀ o', l.operator? = some o' → yieldsTo o o' = true) : Ordered (between l o :: fs)

/-- A value has just ended whose operands fit, and that fits the operator before it. -/
structure Settled (fs : List Frame) (t : Tree) : Prop where
  ordered : Ordered fs
  fits : t.FitsThroughout
  stays : ∀ o, t.operator? = some o → o.place = .between → o.IsBinary ∧ StaysAbove o fs

variable {fs : List Frame} {l t : Tree} {o : Operator}

/-- A sign binds less tightly than an operator that lies on it. -/
theorem precedence_lt_of_isLeadingSign {new waiting : Operator} (hnew : new.IsBinary)
    (hwaiting : waiting.IsLeadingSign) (h : yieldsTo new waiting = false) :
    Operator.precedence new.symbol < Operator.precedence waiting.symbol := by
  rcases Arrangement.precedence_of_not_yieldsTo hnew.2 h with hlt | ⟨-, hpower⟩
  · exact hlt
  · have hsign := hwaiting.2
    rw [hpower] at hsign
    cases hsign

theorem Settled.applySign (h : Settled (before o :: fs) t) :
    Settled fs (.node (.op o) [t]) := by
  obtain ⟨hordered, hfits, hstays⟩ := h
  cases hordered with
  | before ho hfs =>
      refine ⟨hfs, Tree.fitsThroughout_unary hfits fun o' ho' hplace => ?_, ?_⟩
      · obtain ⟨hbinary, habove⟩ := hstays o' ho' hplace
        exact precedence_lt_of_isLeadingSign hbinary ho (habove _ rfl o rfl)
      · rintro o' ⟨⟩ hplace
        rw [ho.1] at hplace
        cases hplace

theorem Settled.applyBinary (h : Settled (between l o :: fs) t) :
    Settled fs (.node (.op o) [l, t]) := by
  obtain ⟨hordered, hfits, hstays⟩ := h
  cases hordered with
  | between ho hfs habove hl hleft =>
      refine ⟨hfs, Tree.fitsThroughout_binary hl hfits ⟨fun o' ho' => ?_, fun o' ho' hplace => ?_⟩, ?_⟩
      · exact Arrangement.yieldsTo_iff.1 (hleft o' ho')
      · obtain ⟨hbinary, habove'⟩ := hstays o' ho' hplace
        rcases Arrangement.precedence_of_not_yieldsTo hbinary.2 (habove' _ rfl o rfl) with
          hlt | ⟨hnew, hpower⟩
        · exact .inl hlt
        · rw [hnew, hpower]
          exact .inr ⟨rfl, rfl⟩
      · rintro o' ⟨⟩ -
        exact ⟨ho, habove⟩

theorem Settled.unwind (h : Settled fs t) (isReady : Operator → Bool) :
    Settled (unwind isReady fs t).1 (unwind isReady fs t).2 := by
  fun_induction Frame.unwind isReady fs t with
  | case1 o fs t _ ih => exact ih h.applySign
  | case3 l o fs t _ ih => exact ih h.applyBinary
  | case2 | case4 | case5 => exact h

/-- The last operator that was applied was ready, and the next one is not. -/
theorem ready_of_unwind (isReady : Operator → Bool) (fs : List Frame)
    (h : ∀ o, t.operator? = some o → isReady o = true) :
    (∀ o, (Frame.unwind isReady fs t).2.operator? = some o → isReady o = true) ∧
      ∀ f ∈ (Frame.unwind isReady fs t).1.head?, ∀ w, f.operator? = some w →
        isReady w = false := by
  refine ⟨?_, isReady_unwind isReady fs t⟩
  fun_induction Frame.unwind isReady fs t with
  | case1 o fs t hready ih | case3 l o fs t hready ih =>
      refine ih fun o' ho' => ?_
      cases ho'
      exact hready
  | case2 | case4 | case5 => exact h

end Frame

/-! ### Sequences of operands -/

namespace Token

/-- The value that a token is on its own. -/
def leaf? : Token → Option Value
  | number n => some (.number n)
  | text s => some (.plainText s)
  | boolean b => some (.boolean b)
  | name s hints => some (.name s hints)
  | _ => none

theorem spells_of_leaf? {t : Token} {v : Value} (h : t.leaf? = some v) :
    (Tree.leaf v).Spells [t] := by
  cases t with
  | number n =>
      cases h
      exact .number n
  | text s =>
      cases h
      exact .text s
  | boolean b =>
      cases h
      exact .boolean b
  | name s hints =>
      cases h
      exact .name s hints
  | op | function | mark => cases h

theorem isContent_of_leaf? {t : Token} {v : Value} (h : t.leaf? = some v) :
    t.isContent = true := by
  cases t with
  | mark => cases h
  | _ => rfl

theorem step_of_leaf? {t : Token} {v : Value} (h : t.leaf? = some v) (previous : Option Token)
    (a : Arrangement) : a.step previous t = .ok (a.push (.leaf v)) := by
  cases t with
  | number | text | boolean | name =>
      cases h
      rfl
  | op | function | mark => cases h

end Token

/-- A number, text, boolean or name, with any number of signs before it. -/
structure Operand where
  signs : List Operator
  atom : Token
  isLeadingSign : ∀ o ∈ signs, o.IsLeadingSign
  isAtom : atom.leaf?.isSome = true

/-- Operands with an operator of two operands between each two of them. -/
structure OperatorSequence where
  first : Operand
  rest : List (Operator × Operand)
  isBinary : ∀ e ∈ rest, e.1.IsBinary

namespace Operand

/-- The tokens of an operand. -/
def tokens (x : Operand) : List Token := x.signs.map .op ++ [x.atom]

theorem eq_of_mem_tokens (x : Operand) {t : Token} (ht : t ∈ x.tokens) :
    (∃ o, t = .op o) ∨ t.leaf?.isSome = true := by
  rcases List.mem_append.1 ht with ht | ht
  · obtain ⟨o, -, rfl⟩ := List.mem_map.1 ht
    exact .inl ⟨o, rfl⟩
  · rw [List.mem_singleton.1 ht]
    exact .inr x.isAtom

end Operand

namespace OperatorSequence

/-- The tokens of a sequence. -/
def tokens (s : OperatorSequence) : List Token :=
  s.first.tokens ++ s.rest.flatMap fun e => .op e.1 :: e.2.tokens

end OperatorSequence

namespace Arrangement

theorem run_cons_of_step {previous : Option Token} {a a' : Arrangement} {t : Token}
    (h : a.step previous t = .ok a') (ts : List Token) :
    a.run previous (t :: ts) = a'.run (some t) ts := by
  rw [run, h]
  rfl

end Arrangement

namespace Frame

variable {fs : List Frame} {ts : List Token}

/-- After the signs of an operand and its atom, a value has ended. -/
theorem run_operand (x : Operand) (hopens : Opens fs ts) (hordered : Ordered fs)
    (previous : Option Token) :
    ∃ previous' fs' v us, Opens fs' us ∧ Settled fs' (.leaf v) ∧
      (Tree.leaf v).Spells [x.atom] ∧ us ++ [x.atom] = ts ++ x.tokens ∧
      ∀ more, (arrange fs).run previous (x.tokens ++ more) =
        (hold fs' (.leaf v)).run previous' more := by
  obtain ⟨signs, atom, hsigns, hatom⟩ := x
  obtain ⟨v, hv⟩ := Option.isSome_iff_exists.1 hatom
  unfold Operand.tokens
  dsimp only
  induction signs generalizing fs ts previous with
  | nil =>
      refine ⟨some atom, fs, v, ts, hopens, ⟨hordered, Tree.fitsThroughout_leaf v, ?_⟩,
        Token.spells_of_leaf? hv, rfl, fun more => ?_⟩
      · rintro o ⟨⟩
      · exact Arrangement.run_cons_of_step (Token.step_of_leaf? hv ..) _
  | cons o signs ih =>
      have ho := hsigns o List.mem_cons_self
      obtain ⟨previous', fs', v', us, hopens', hsettled, hspells, htokens, hrun⟩ :=
        ih (hopens.before ho.1 (Operator.arity_of_isSign ho.2)) (hordered.before ho) (some (.op o))
          fun o' ho' => hsigns o' (List.mem_cons_of_mem o ho')
      refine ⟨previous', fs', v', us, hopens', hsettled, hspells, ?_, fun more => ?_⟩
      · simpa using htokens
      · exact (Arrangement.run_cons_of_step (step_before ho.1) _).trans (hrun more)

/-- After each operator and operand of a sequence, a value has ended. -/
theorem run_rest {t : Tree} {us : List Token} {rest : List (Operator × Operand)}
    (hrest : ∀ e ∈ rest, e.1.IsBinary) (hopens : Opens fs ts) (hspells : t.Spells us)
    (hsettled : Settled fs t) (hleaf : t.operator? = none) (previous : Option Token) :
    ∃ fs' t' ts' us', Opens fs' ts' ∧ t'.Spells us' ∧ Settled fs' t' ∧
      ts' ++ us' = ts ++ us ++ (rest.flatMap fun e => .op e.1 :: e.2.tokens) ∧
      (hold fs t).run previous (rest.flatMap fun e => .op e.1 :: e.2.tokens) =
        .ok (hold fs' t') := by
  induction rest generalizing fs t ts us previous with
  | nil => exact ⟨fs, t, ts, us, hopens, hspells, hsettled, by simp, rfl⟩
  | cons e rest ih =>
      obtain ⟨o, x⟩ := e
      have ho : o.IsBinary := hrest (o, x) List.mem_cons_self
      -- what binds more tightly than the operator is applied, and becomes its left operand
      obtain ⟨ts₁, us₁, hopens₁, hspells₁, htokens₁⟩ :=
        hopens.unwind hspells (Arrangement.yieldsTo o)
      obtain ⟨hready, hstays⟩ := ready_of_unwind (Arrangement.yieldsTo o) fs (t := t) fun o' ho' => by
        rw [hleaf] at ho'
        cases ho'
      have hsettled₁ := hsettled.unwind (Arrangement.yieldsTo o)
      have hstep : (hold fs t).step previous (.op o) =
          .ok (arrange (between (unwind (Arrangement.yieldsTo o) fs t).2 o ::
            (unwind (Arrangement.yieldsTo o) fs t).1)) :=
        step_operator (by rw [ho.1]; exact Placement.noConfusion)
          (applyWhile_hold hopens.isProper t)
      have hordered : Ordered (between (unwind (Arrangement.yieldsTo o) fs t).2 o ::
          (unwind (Arrangement.yieldsTo o) fs t).1) :=
        .between ho hsettled₁.ordered hstays hsettled₁.fits hready
      obtain ⟨previous', fs₂, v, us₂, hopens₂, hsettled₂, hspells₂, htokens₂, hrun⟩ :=
        run_operand x (hopens₁.between ho.1 ho.2 hspells₁) hordered (some (.op o))
      obtain ⟨fs', t', ts', us', hopens', hspells', hsettled', htokens', hrun'⟩ :=
        ih (fun e he => hrest e (List.mem_cons_of_mem _ he)) hopens₂ hspells₂ hsettled₂ rfl previous'
      refine ⟨fs', t', ts', us', hopens', hspells', hsettled', ?_, ?_⟩
      · rw [htokens', htokens₂, htokens₁]
        simp
      · rw [List.flatMap_cons, List.cons_append, Arrangement.run_cons_of_step hstep, hrun, hrun']

end Frame

/-! ### The tree of a sequence -/

namespace OperatorSequence

/-- A sequence has operators and values only. -/
theorem eq_of_mem_tokens (s : OperatorSequence) {t : Token} (ht : t ∈ s.tokens) :
    (∃ o, t = .op o) ∨ t.leaf?.isSome = true := by
  rcases List.mem_append.1 ht with ht | ht
  · exact s.first.eq_of_mem_tokens ht
  · obtain ⟨e, -, ht⟩ := List.mem_flatMap.1 ht
    rcases List.mem_cons.1 ht with rfl | ht
    · exact .inl ⟨e.1, rfl⟩
    · exact e.2.eq_of_mem_tokens ht

theorem isContent_of_mem_tokens (s : OperatorSequence) : ∀ t ∈ s.tokens, t.isContent = true := by
  intro t ht
  rcases s.eq_of_mem_tokens ht with ⟨o, rfl⟩ | hatom
  · rfl
  · obtain ⟨v, hv⟩ := Option.isSome_iff_exists.1 hatom
    exact Token.isContent_of_leaf? hv

/-- A sequence has no functions, which could be read as products. -/
theorem withProducts_tokens (s : OperatorSequence) (isVariable : String → Bool) :
    Tree.withProducts isVariable s.tokens = s.tokens := by
  refine Tree.withProducts_eq_self fun name hname => ?_
  rcases s.eq_of_mem_tokens hname with ⟨o, ho⟩ | hatom
  · cases ho
  · cases hatom

/-- **Arrangement by precedence.** Every sequence of operands and operators has a tree. Read
in order the tree is the sequence, and at every operator of the tree the operands bind
tightly enough. -/
theorem ofTokens_precedence (s : OperatorSequence) (isVariable : String → Bool) :
    ∃ t, Tree.ofTokens isVariable s.tokens = .ok (some t) ∧ t.Reads s.tokens ∧
      ∀ u ∈ t.subtrees, u.OperandsFit := by
  obtain ⟨previous, fs₁, v, us₁, hopens₁, hsettled₁, hspells₁, htokens₁, hrun₁⟩ :=
    Frame.run_operand s.first .nil .nil none
  obtain ⟨fs, t, ts, us, hopens, hspells, hsettled, htokens, hrun⟩ :=
    Frame.run_rest s.isBinary hopens₁ hspells₁ hsettled₁ rfl previous
  -- in the end all operators that wait are applied
  obtain ⟨ts', us', hopens', hspells', htokens'⟩ :=
    hopens.unwind hspells fun _ => true
  have hsettled' := hsettled.unwind fun _ => true
  have hcloses := Frame.closes_hold hopens.isProper t
  have hall := (Frame.ready_of_unwind (fun _ => true) fs (t := t) fun _ _ => rfl).2
  generalize (Frame.unwind (fun _ => true) fs t).1 = fs' at *
  generalize (Frame.unwind (fun _ => true) fs t).2 = t' at *
  have hnil : fs' = [] := by
    cases hsettled'.ordered with
    | nil => rfl
    | before => exact (Bool.noConfusion (hall _ rfl _ rfl))
    | between => exact (Bool.noConfusion (hall _ rfl _ rfl))
  subst hnil
  cases hopens'
  refine ⟨t', ?_, ?_, hsettled'.fits⟩
  · unfold Tree.ofTokens
    rw [withProducts_tokens, tokens, show Arrangement.empty = Frame.arrange [] from rfl, hrun₁, hrun]
    show (Arrangement.finish _).mapError _ = _
    rw [Frame.finish_of_closes hcloses]
    rfl
  · have hreads := hspells'.reads
    rw [List.nil_append] at htokens'
    rw [htokens', htokens, htokens₁, List.nil_append] at hreads
    rwa [show s.first.tokens ++ (s.rest.flatMap fun e => Token.op e.1 :: e.2.tokens) = s.tokens
      from rfl, List.filter_eq_self.2 s.isContent_of_mem_tokens] at hreads

end OperatorSequence

end MathExpr
