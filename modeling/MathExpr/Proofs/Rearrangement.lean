import MathExpr.Pattern.Matching
import MathExpr.Proofs.Equality
import MathExpr.Proofs.Trees
import Mathlib.Data.List.Perm.Basic
import Mathlib.Logic.Relation

/-!
# Sums and products in another order

Two trees are rearrangements of each other if one becomes the other by changing the order and the
grouping of the operands of sums and products, at any depth (`Tree.Rearranged`). The operands of a
chain then are the same up to their order and up to rearrangement (`Tree.Rearranged.operandsOf`), and
nothing else changes: a value stays as it is, and so do the head and the number of arguments of a
node (`Tree.Rearranged.sameShape`).
-/

namespace MathExpr.Tree

/-- Whether an operator makes sums or products. -/
def isSumOrProduct (symbol : String) : Prop := symbol = "+" ∨ symbol = "*"

/-- A change of the order or the grouping of two or three operands of a sum or product, somewhere in a tree. -/
inductive RearrangementStep : Tree → Tree → Prop
  | swap {o : Operator} (ho : isSumOrProduct o.symbol) (a b : Tree) :
      RearrangementStep (node (.op o) [a, b]) (node (.op o) [b, a])
  | regroup {o o' : Operator} (ho : isSumOrProduct o.symbol) (ho' : o'.symbol = o.symbol) (a b c : Tree) :
      RearrangementStep (node (.op o) [node (.op o') [a, b], c]) (node (.op o) [a, node (.op o') [b, c]])
  | inside (h : Head) (before after : List Tree) {t u : Tree} (htu : RearrangementStep t u) :
      RearrangementStep (node h (before ++ t :: after)) (node h (before ++ u :: after))

/-- One tree becomes the other by changing the order and the grouping of operands of sums and products. -/
abbrev Rearranged : Tree → Tree → Prop := Relation.EqvGen RearrangementStep

namespace Rearranged

theorem inside (h : Head) (before after : List Tree) {t u : Tree} (htu : Rearranged t u) :
    Rearranged (node h (before ++ t :: after)) (node h (before ++ u :: after)) := by
  induction htu with
  | rel _ _ hstep => exact .rel _ _ (.inside h before after hstep)
  | refl t => exact .refl _
  | symm _ _ _ ih => exact .symm _ _ ih
  | trans _ _ _ _ _ ih₁ ih₂ => exact .trans _ _ _ ih₁ ih₂

theorem forall₂_refl (ts : List Tree) : List.Forall₂ Rearranged ts ts :=
  List.forall₂_same.2 fun t _ => .refl t

theorem forall₂_symm {ts us : List Tree} (h : List.Forall₂ Rearranged ts us) :
    List.Forall₂ Rearranged us ts :=
  forall₂_symm_of_mem (fun _ _ _ _ => .symm _ _) h

theorem forall₂_trans {ts us vs : List Tree} (h : List.Forall₂ Rearranged ts us)
    (h' : List.Forall₂ Rearranged us vs) : List.Forall₂ Rearranged ts vs :=
  forall₂_trans_of_mem (fun _ _ _ _ _ _ => .trans _ _ _) h h'

end Rearranged

/-! ### Shapes -/

/-- The arguments of a node whose order and grouping matter. -/
def KeepsArguments (h : Head) (ts : List Tree) : Prop :=
  ∀ o, h = .op o → isSumOrProduct o.symbol → ts.length ≠ 2

/-- The trees are the same value, or nodes with the same head and number of arguments, where the arguments
are rearrangements of each other unless this is a sum or product. -/
inductive SameShape : Tree → Tree → Prop
  | leaf (v : Value) : SameShape (leaf v) (leaf v)
  | node (h : Head) {ts us : List Tree} (hlength : ts.length = us.length)
      (hargs : KeepsArguments h ts → List.Forall₂ Rearranged ts us) : SameShape (node h ts) (node h us)

namespace SameShape

theorem refl (t : Tree) : SameShape t t := by
  cases t with
  | leaf v => exact .leaf v
  | node h ts => exact .node h rfl fun _ => Rearranged.forall₂_refl ts

theorem symm {t u : Tree} (h : SameShape t u) : SameShape u t := by
  cases h with
  | leaf v => exact .leaf v
  | node h hlength hargs =>
      refine .node h hlength.symm fun hkeeps => Rearranged.forall₂_symm (hargs ?_)
      exact fun o ho hsymbol => hlength ▸ hkeeps o ho hsymbol

theorem trans {t u v : Tree} (htu : SameShape t u) (huv : SameShape u v) : SameShape t v := by
  cases htu with
  | leaf w => exact huv
  | node h hlength hargs =>
      cases huv with
      | node _ hlength' hargs' =>
          refine .node h (hlength.trans hlength') fun hkeeps => ?_
          have hkeeps' : KeepsArguments h _ := fun o ho hsymbol => hlength ▸ hkeeps o ho hsymbol
          exact Rearranged.forall₂_trans (hargs hkeeps) (hargs' hkeeps')

theorem of_step {t u : Tree} (h : RearrangementStep t u) : SameShape t u := by
  cases h with
  | swap ho a b => exact .node _ rfl fun hkeeps => absurd rfl (hkeeps _ rfl ho)
  | regroup ho ho' a b c => exact .node _ rfl fun hkeeps => absurd rfl (hkeeps _ rfl ho)
  | inside h before after htu =>
      refine .node h (by simp) fun _ => ?_
      exact List.rel_append (Rearranged.forall₂_refl before)
        (.cons (.rel _ _ htu) (Rearranged.forall₂_refl after))

end SameShape

theorem Rearranged.sameShape {t u : Tree} (h : Rearranged t u) : SameShape t u := by
  induction h with
  | rel _ _ hstep => exact .of_step hstep
  | refl t => exact .refl t
  | symm _ _ _ ih => exact ih.symm
  | trans _ _ _ _ _ ih₁ ih₂ => exact ih₁.trans ih₂

theorem Rearranged.kind_eq {t u : Tree} (h : Rearranged t u) : t.kind = u.kind := by
  cases h.sameShape <;> rfl

/-! ### Operands -/

/-- The trees of two lists are rearrangements of each other, up to the order of the lists. -/
def SameUpToOrder (ts us : List Tree) : Prop := ∃ vs, ts.Perm vs ∧ List.Forall₂ Rearranged vs us

namespace SameUpToOrder

variable {ts us vs ts' us' : List Tree}

theorem of_perm (h : ts.Perm us) : SameUpToOrder ts us :=
  ⟨us, h, Rearranged.forall₂_refl us⟩

theorem singleton {t u : Tree} (h : Rearranged t u) : SameUpToOrder [t] [u] :=
  ⟨[t], .refl _, .cons h .nil⟩

theorem symm (h : SameUpToOrder ts us) : SameUpToOrder us ts := by
  obtain ⟨vs, hperm, hrel⟩ := h
  have hrel := Rearranged.forall₂_symm hrel
  obtain ⟨ws, hrel, hperm⟩ : ∃ ws, us.Perm ws ∧ List.Forall₂ Rearranged ws ts := by
    have hcomp : (Relation.Comp (List.Forall₂ Rearranged) List.Perm) us ts := ⟨vs, hrel, hperm.symm⟩
    rwa [List.forall₂_comp_perm_eq_perm_comp_forall₂] at hcomp
  exact ⟨ws, hrel, hperm⟩

theorem trans (h : SameUpToOrder ts us) (h' : SameUpToOrder us vs) : SameUpToOrder ts vs := by
  obtain ⟨ws, hperm, hrel⟩ := h
  obtain ⟨ws', hperm', hrel'⟩ := h'
  obtain ⟨xs, hperm'', hrel''⟩ : ∃ xs, ws.Perm xs ∧ List.Forall₂ Rearranged xs ws' := by
    have hcomp : (Relation.Comp (List.Forall₂ Rearranged) List.Perm) ws ws' := ⟨us, hrel, hperm'⟩
    rwa [List.forall₂_comp_perm_eq_perm_comp_forall₂] at hcomp
  exact ⟨xs, hperm.trans hperm'', Rearranged.forall₂_trans hrel'' hrel'⟩

theorem append (h : SameUpToOrder ts us) (h' : SameUpToOrder ts' us') :
    SameUpToOrder (ts ++ ts') (us ++ us') := by
  obtain ⟨vs, hperm, hrel⟩ := h
  obtain ⟨vs', hperm', hrel'⟩ := h'
  exact ⟨vs ++ vs', hperm.append hperm', List.rel_append hrel hrel'⟩

theorem length_eq (h : SameUpToOrder ts us) : ts.length = us.length := by
  obtain ⟨vs, hperm, hrel⟩ := h
  rw [hperm.length_eq, hrel.length_eq]

theorem isSome_chain? (symbol : String) (h : SameUpToOrder ts us) :
    (chain? symbol ts).isSome = (chain? symbol us).isSome := by
  have hlength := h.length_eq
  cases ts with
  | nil =>
      cases us with
      | nil => rfl
      | cons u us => cases hlength
  | cons t ts =>
      cases us with
      | nil => cases hlength
      | cons u us => rfl

/-- Each tree of one list has a counterpart in the other. -/
theorem exists_of_append_cons {before after : List Tree} {t : Tree}
    (h : SameUpToOrder (before ++ t :: after) us) :
    ∃ before' u after', us = before' ++ u :: after' ∧ Rearranged t u ∧
      SameUpToOrder (before ++ after) (before' ++ after') := by
  obtain ⟨vs, hperm, hrel⟩ := h.symm
  have hbefore := List.forall₂_take_append vs before (t :: after) hrel
  have hafter := List.forall₂_drop_append vs before (t :: after) hrel
  rw [← List.take_append_drop before.length vs] at hperm
  obtain ⟨u, vs₂, hut, hafter, hdrop⟩ := List.forall₂_cons_right_iff.1 hafter
  rw [hdrop] at hperm
  obtain ⟨before', after', rfl⟩ := List.append_of_mem (hperm.symm.subset (by simp : u ∈ _))
  refine ⟨before', u, after', rfl, .symm _ _ hut, SameUpToOrder.symm ⟨_, ?_, List.rel_append hbefore hafter⟩⟩
  exact (List.perm_middle.symm.trans (hperm.trans List.perm_middle)).cons_inv

end SameUpToOrder

theorem operandsOf_pair {symbol : String} {o : Operator} (ho : o.symbol = symbol) (a b : Tree) :
    operandsOf symbol (node (.op o) [a, b]) = operandsOf symbol a ++ operandsOf symbol b := by
  rw [operandsOf, if_pos ho]

theorem operandsOf_of_ne {symbol : String} {t : Tree}
    (h : ∀ o a b, t = node (.op o) [a, b] → o.symbol ≠ symbol) : operandsOf symbol t = [t] := by
  unfold operandsOf
  split
  · rename_i o a b
    rw [if_neg (h o a b rfl)]
  · rfl

theorem sameUpToOrder_of_step (symbol : String) {t u : Tree} (h : RearrangementStep t u) :
    SameUpToOrder (operandsOf symbol t) (operandsOf symbol u) := by
  have hsingle {t u : Tree} (htu : RearrangementStep t u) : SameUpToOrder [t] [u] := .singleton (.rel _ _ htu)
  induction h with
  | @swap o ho a b =>
      by_cases hsymbol : o.symbol = symbol
      · rw [operandsOf_pair hsymbol, operandsOf_pair hsymbol]
        exact .of_perm List.perm_append_comm
      · rw [operandsOf, if_neg hsymbol, operandsOf, if_neg hsymbol]
        exact hsingle (.swap ho a b)
  | @regroup o o' ho ho' a b c =>
      by_cases hsymbol : o.symbol = symbol
      · have hsymbol' := ho'.trans hsymbol
        rw [operandsOf_pair hsymbol, operandsOf_pair hsymbol, operandsOf_pair hsymbol',
          operandsOf_pair hsymbol', List.append_assoc]
        exact .of_perm (.refl _)
      · rw [operandsOf, if_neg hsymbol, operandsOf, if_neg hsymbol]
        exact hsingle (.regroup ho ho' a b c)
  | @inside head before after t u htu ih =>
      -- The change is inside of an operand of the chain, or the node is the only operand.
      by_cases hchain : ∃ o, head = .op o ∧ o.symbol = symbol ∧ (before ++ t :: after).length = 2
      · obtain ⟨o, rfl, hsymbol, hlength⟩ := hchain
        match before, after with
        | [], [b] =>
            rw [List.nil_append, List.nil_append, operandsOf_pair hsymbol, operandsOf_pair hsymbol]
            exact ih.append (.of_perm (.refl _))
        | [a], [] =>
            rw [List.singleton_append, List.singleton_append, operandsOf_pair hsymbol, operandsOf_pair hsymbol]
            exact SameUpToOrder.append (.of_perm (.refl _)) ih
        | [], [] | [], _ :: _ :: _ | [_], _ :: _ | _ :: _ :: _, _ => simp at hlength
      · have hne (v : Tree) : operandsOf symbol (node head (before ++ v :: after)) =
            [node head (before ++ v :: after)] := by
          refine operandsOf_of_ne fun o a b heq hsymbol => ?_
          injection heq with hhead hargs
          exact hchain ⟨o, hhead, hsymbol, by simpa using congrArg List.length hargs⟩
        rw [hne, hne]
        exact hsingle (.inside head before after htu)

/-- Where sums and products are rearranged, the operands of every chain are the same up to their order. -/
theorem Rearranged.operandsOf (symbol : String) {t u : Tree} (h : Rearranged t u) :
    SameUpToOrder (t.operandsOf symbol) (u.operandsOf symbol) := by
  induction h with
  | rel _ _ hstep => exact sameUpToOrder_of_step symbol hstep
  | refl t => exact .of_perm (.refl _)
  | symm _ _ _ ih => exact ih.symm
  | trans _ _ _ _ _ ih₁ ih₂ => exact ih₁.trans ih₂

end MathExpr.Tree
