import MathExpr.Proofs.Orderly

/-!
# The order of signatures

The signatures of a name are tried one after the other, so that their order decides which is applied.
Merging scopes puts them in the order of their serial numbers, which is the order in which they were made,
and drops repetitions. Adding a signature to a scope only puts it behind the others: a scope in which an
older signature is added later has another order than its children, and so applies another signature
(`Scope.not_inOrder_addSignature`).

Where each signature that is added is younger than those that its name has, all scopes are in order, and
children have the same signatures (`Scope.Registered.signatures_inOrder`).
-/

namespace MathExpr

namespace Signature

/-- In strict order of the serial numbers, which leaves no room for repetitions. -/
def InOrder (fs : List Signature) : Prop := fs.Pairwise fun f g => f.serial < g.serial

theorem InOrder.inOrder_eq {fs : List Signature} (h : InOrder fs) : inOrder fs = fs :=
  List.mergeSort_of_pairwise (h.imp fun hlt => decide_eq_true (Nat.le_of_lt hlt))

theorem pairwise_inOrder (fs : List Signature) : (inOrder fs).Pairwise fun f g => f.serial ≤ g.serial := by
  have hsorted : (inOrder fs).Pairwise fun f g => decide (f.serial ≤ g.serial) = true := by
    refine List.pairwise_mergeSort (fun f g k hfg hgk => ?_) (fun f g => ?_) fs
    · rw [decide_eq_true_eq] at *
      exact Nat.le_trans hfg hgk
    · rw [Bool.or_eq_true, decide_eq_true_eq, decide_eq_true_eq]
      exact Nat.le_total f.serial g.serial
  exact hsorted.imp of_decide_eq_true

/-- Signatures with different serial numbers are in strict order after sorting. -/
theorem inOrder_of_nodup {fs : List Signature} (h : (fs.map serial).Nodup) : InOrder (inOrder fs) := by
  have hnodup : ((inOrder fs).map serial).Nodup := ((List.mergeSort_perm fs _).map serial).nodup_iff.2 h
  refine ((pairwise_inOrder fs).and (List.pairwise_map.1 hnodup)).imp fun {f g} hfg => ?_
  exact Nat.lt_of_le_of_ne hfg.1 hfg.2

theorem isIn_eq_true {f : Signature} {fs : List Signature} :
    f.isIn fs = true ↔ f.serial ∈ fs.map serial := by
  unfold isIn
  rw [List.any_eq_true, List.mem_map]
  exact exists_congr fun g => and_congr_right fun _ => beq_iff_eq

/-- Merging signatures in order with others puts all in order, whatever the order of the others is. -/
theorem inOrder_merge {fs gs : List Signature} (hfs : InOrder fs) (hgs : (gs.map serial).Nodup) :
    InOrder (merge fs gs) := by
  refine inOrder_of_nodup ?_
  rw [List.map_append]
  refine List.nodup_append.2 ⟨?_, ?_, ?_⟩
  · exact List.pairwise_map.2 (hfs.imp fun hlt => Nat.ne_of_lt hlt)
  · exact hgs.sublist (List.filter_sublist.map serial)
  · intro m hm n hn heq
    obtain ⟨g, hg, rfl⟩ := List.mem_map.1 hn
    obtain ⟨-, hnew⟩ := List.mem_filter.1 hg
    rw [heq, ← isIn_eq_true] at hm
    rw [hm] at hnew
    cases hnew

end Signature

namespace Scope

/-- A scope that comes from the empty one by laying layers over it, building children, changing variables
and rulesets, freezing, and adding signatures that are younger than those that their name has. A layer may
list the signatures of a name in any order, but each only once. -/
inductive Registered : Scope → Prop
  | empty : Registered .empty
  | merge {s : Scope} (h : Registered s) {l : Layer}
      (hl : ∀ e ∈ l.functions.entries, (e.2.map Signature.serial).Nodup) : Registered (s.merge l)
  | child {s : Scope} (h : Registered s) : Registered s.child
  | addSignature {s : Scope} (h : Registered s) {f : Signature}
      (hf : ∀ g ∈ s.signatures f.name, g.serial < f.serial) : Registered (s.addSignature f)
  | bind {s : Scope} (h : Registered s) (name : String) (v : Value) : Registered (s.bind name v)
  | unbind {s : Scope} (h : Registered s) (name : String) : Registered (s.unbind name)
  | addRuleset {s : Scope} (h : Registered s) (name : String) (r : Selection) :
      Registered (s.addRuleset name r)
  | freeze {s : Scope} (h : Registered s) : Registered s.freeze

/-- The signatures of every name are in order. -/
def EachInOrder (s : Scope) : Prop := ∀ name, Signature.InOrder (s.signatures name)

/-- One name gets other signatures. -/
theorem EachInOrder.insert {s : Scope} (h : s.EachInOrder) (key : String) {fs : List Signature}
    (hfs : Signature.InOrder fs) :
    EachInOrder { s with functions := s.functions.insert key fs } := by
  intro name
  show Signature.InOrder (((s.functions.insert key fs).find? (Text.lower name)).getD [])
  rw [Table.find?_insert]
  split
  · exact hfs
  · exact h name

theorem EachInOrder.merge {s : Scope} (h : s.EachInOrder) {l : Layer}
    (hl : ∀ e ∈ l.functions.entries, (e.2.map Signature.serial).Nodup) : (s.merge l).EachInOrder := by
  show EachInOrder { s with functions := List.foldl _ s.functions l.functions.entries }
  generalize l.functions.entries = entries at hl
  induction entries generalizing s with
  | nil => exact h
  | cons e rest ih =>
      refine ih (h.insert _ ?_) fun e' he' => hl e' (List.mem_cons_of_mem e he')
      exact Signature.inOrder_merge (h e.1) (hl e List.mem_cons_self)

theorem EachInOrder.child {s : Scope} (h : s.EachInOrder) : s.child.EachInOrder := by
  intro name
  rw [signatures_child, (h name).inOrder_eq]
  exact h name

theorem EachInOrder.addSignature {s : Scope} (h : s.EachInOrder) {f : Signature}
    (hf : ∀ g ∈ s.signatures f.name, g.serial < f.serial) : (s.addSignature f).EachInOrder := by
  refine h.insert _ (List.pairwise_append.2 ⟨h f.name, List.pairwise_singleton _ f, ?_⟩)
  intro g hg f' hf'
  rw [List.mem_singleton.1 hf']
  exact hf g hg

/-- **The order of signatures.** If all signatures were added in the order in which they were made, then
the signatures of every name are in this order, without repetition, and every child has the same
signatures in the same order, so that it applies the same one to all arguments. -/
theorem Registered.signatures_inOrder {s : Scope} (h : s.Registered) (name : String) :
    Signature.InOrder (s.signatures name) ∧ s.child.signatures name = s.signatures name := by
  have hall : s.EachInOrder := by
    induction h with
    | empty => exact fun _ => .nil
    | merge _ hl ih => exact ih.merge hl
    | child _ ih => exact ih.child
    | addSignature _ hf ih => exact ih.addSignature hf
    | bind _ _ _ ih => exact ih
    | unbind _ _ ih => exact ih
    | addRuleset _ _ _ ih => exact ih
    | freeze _ ih => exact ih
  refine ⟨hall name, ?_⟩
  rw [signatures_child, (hall name).inOrder_eq]

/-- The `n`th signature that is made, of a function that takes no arguments and gives `n`. -/
def overload (n : Nat) : Signature := ⟨n, "f", [], .custom [] "?" (.leaf (.nat n))⟩

theorem Registered.signatures_inOrder_overloads :
    ((Scope.empty.addSignature (overload 1)).addSignature (overload 2)).Registered ∧
      Signature.InOrder
        (((Scope.empty.addSignature (overload 1)).addSignature (overload 2)).signatures "f") := by
  have h : ((Scope.empty.addSignature (overload 1)).addSignature (overload 2)).Registered := by
    refine (Registered.empty.addSignature ?_).addSignature ?_
    · rintro g ⟨⟩
    · rw [signatures_addSignature]
      intro g hg
      cases List.mem_singleton.1 hg
      decide
  exact ⟨h, (h.signatures_inOrder "f").1⟩

/-- A signature that was made first and is added last stays last, but comes first in a child, which
applies it in place of the other. -/
theorem not_inOrder_addSignature :
    ¬Signature.InOrder (((Scope.empty.addSignature (overload 2)).addSignature (overload 1)).signatures "f") ∧
      (((Scope.empty.addSignature (overload 2)).addSignature (overload 1)).child.signatures "f").find?
          (fun f => f.takes []) ≠
        (((Scope.empty.addSignature (overload 2)).addSignature (overload 1)).signatures "f").find?
          fun f => f.takes [] := by
  have hlist : ((Scope.empty.addSignature (overload 2)).addSignature (overload 1)).signatures "f" =
      [overload 2, overload 1] := by
    rw [signatures_addSignature, signatures_addSignature]
    rfl
  have hchild : ((Scope.empty.addSignature (overload 2)).addSignature (overload 1)).child.signatures "f" =
      [overload 1, overload 2] := by
    rw [signatures_child, hlist]
    simp [Signature.inOrder, List.mergeSort, overload]
  rw [hlist, hchild]
  constructor
  · intro h
    exact absurd (List.rel_of_pairwise_cons h List.mem_cons_self) (by decide)
  · intro h
    exact absurd (congrArg Signature.serial (Option.some.inj h)) (by decide)

end Scope

end MathExpr
