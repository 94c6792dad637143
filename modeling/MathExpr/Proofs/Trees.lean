import MathExpr.Tree.Basic

/-!
# Induction over trees

A tree is a leaf, or a node whose arguments are a list of trees. `Tree.ind` is induction
with one case for each: what holds of all arguments of a node has to hold of the node. The
subtrees of a tree are the tree itself and the subtrees of its arguments.
-/

namespace MathExpr.Tree

/-- Induction over trees. -/
theorem ind {P : Tree → Prop} (leaf : ∀ v, P (.leaf v))
    (node : ∀ h args, (∀ t ∈ args, P t) → P (.node h args)) (t : Tree) : P t := by
  refine Tree.rec (motive_1 := P) (motive_2 := fun ts => ∀ t ∈ ts, P t) leaf node ?_ ?_ t
  · intro t ht
    cases ht
  · intro t ts ht hts u hu
    rcases List.mem_cons.1 hu with rfl | hu
    · exact ht
    · exact hts u hu

theorem mem_subtreesOf {u : Tree} {ts : List Tree} :
    u ∈ subtreesOf ts ↔ ∃ t ∈ ts, u ∈ t.subtrees := by
  induction ts with
  | nil => simp [subtreesOf]
  | cons t ts ih => simp [subtreesOf, ih]

theorem mem_subtrees_self (t : Tree) : t ∈ t.subtrees := by
  cases t <;> exact List.mem_cons_self

theorem subtrees_of_mem {h : Head} {args : List Tree} {t : Tree} (ht : t ∈ args) {v : Tree}
    (hv : v ∈ t.subtrees) : v ∈ (Tree.node h args).subtrees :=
  List.mem_cons_of_mem _ (mem_subtreesOf.2 ⟨t, ht, hv⟩)

/-- A part of a part of a tree is a part of the tree. -/
theorem subtrees_trans {t v w : Tree} (hv : v ∈ t.subtrees) (hw : w ∈ v.subtrees) : w ∈ t.subtrees := by
  induction t using ind with
  | leaf a =>
      rwa [List.mem_singleton.1 hv] at hw
  | node h args ih =>
      rcases List.mem_cons.1 hv with rfl | hv
      · exact hw
      · obtain ⟨t, ht, hv⟩ := mem_subtreesOf.1 hv
        exact subtrees_of_mem ht (ih t ht hv)

end MathExpr.Tree
