import MathExpr.Proofs.LowerCase
import MathExpr.Proofs.Tables
import MathExpr.Scope

/-!
# What a scope binds

What the operations on scopes do to the value of a name, by its key: `bind` changes the
value of one name, `bindAll` those of several, `without` takes away those of some, and
`child` changes none. The signatures of a child scope are those of its parent in another
order.
-/

namespace MathExpr

namespace Scope

/-! ### Values -/

theorem value?_child (s : Scope) (n : String) : s.child.value? n = s.value? n := rfl

theorem value?_bind (s : Scope) (name n : String) (v : Value) :
    (s.bind name v).value? n = if Text.lower n = Text.lower name then some v else s.value? n :=
  Table.find?_insert s.values (Text.lower name) (Text.lower n) v

/-- The value of a name is that of its key. -/
theorem value?_lower (s : Scope) (n : String) : s.value? (Text.lower n) = s.value? n := by
  unfold value?
  rw [Text.lower_lower]

theorem binds_lower (s : Scope) (n : String) : s.binds (Text.lower n) = s.binds n := by
  unfold binds
  rw [value?_lower]

/-- Names that are bound change the values of no others. -/
theorem value?_bindAll (s : Scope) (bindings : List (String × Value)) (n : String)
    (h : ∀ b ∈ bindings, Text.lower n ≠ Text.lower b.1) :
    (s.bindAll bindings).value? n = s.value? n := by
  induction bindings generalizing s with
  | nil => rfl
  | cons b rest ih =>
      show ((s.bind b.1 b.2).bindAll rest).value? n = _
      rw [ih _ fun c hc => h c (List.mem_cons_of_mem b hc), value?_bind,
        if_neg (h b List.mem_cons_self)]

/-- Names that are bound have their values, whatever the order. -/
theorem value?_bindAll_map (s : Scope) {names : List String} (hnames : ∀ m ∈ names, Text.lower m = m)
    (w : String → Value) (n : String) :
    (s.bindAll (names.map fun m => (m, w m))).value? n =
      if Text.lower n ∈ names then some (w (Text.lower n)) else s.value? n := by
  induction names generalizing s with
  | nil => rfl
  | cons m rest ih =>
      show ((s.bind m (w m)).bindAll (rest.map fun m => (m, w m))).value? n = _
      rw [ih _ fun k hk => hnames k (List.mem_cons_of_mem m hk), value?_bind,
        hnames m List.mem_cons_self]
      by_cases hrest : Text.lower n ∈ rest
      · rw [if_pos hrest, if_pos (List.mem_cons_of_mem m hrest)]
      · rw [if_neg hrest]
        by_cases hm : Text.lower n = m
        · rw [if_pos hm, hm, if_pos List.mem_cons_self]
        · rw [if_neg hm, if_neg fun h => (List.mem_cons.1 h).elim hm hrest]

theorem find?_foldl_unbind (s : Scope) (names : List String) (k : String) :
    (names.foldl unbind s).values.find? k =
      if k ∈ names.map Text.lower then none else s.values.find? k := by
  induction names generalizing s with
  | nil => simp
  | cons name rest ih =>
      have hunbind : (s.unbind name).values.find? k =
          if k = Text.lower name then none else s.values.find? k :=
        Table.find?_erase s.values (Text.lower name) k
      rw [List.foldl_cons, ih, hunbind, List.map_cons]
      by_cases hn : k = Text.lower name
      · simp [hn]
      · by_cases hrest : k ∈ rest.map Text.lower
        · rw [if_pos hrest, if_pos (List.mem_cons_of_mem _ hrest)]
        · rw [if_neg hrest, if_neg hn, if_neg]
          intro hmem
          rcases List.mem_cons.1 hmem with hmem | hmem
          · exact hn hmem
          · exact hrest hmem

/-- A scope without some names gives them no value, and the others the same as before. -/
theorem find?_without (s : Scope) (names : List String) (k : String) :
    (s.without names).values.find? k =
      if k ∈ names.map Text.lower then none else s.values.find? k :=
  find?_foldl_unbind s.child names k

/-! ### Signatures -/

theorem functions_bindAll (s : Scope) (bindings : List (String × Value)) :
    (s.bindAll bindings).functions = s.functions := by
  induction bindings generalizing s with
  | nil => rfl
  | cons b rest ih => exact ih (s.bind b.1 b.2)

theorem mem_signatures_child {s : Scope} {name : String} {f : Signature} :
    f ∈ s.child.signatures name ↔ f ∈ s.signatures name := by
  show f ∈ ((s.functions.mapEntries Signature.inOrder).find? (Text.lower name)).getD [] ↔
    f ∈ (s.functions.find? (Text.lower name)).getD []
  rw [Table.find?_mapEntries]
  cases s.functions.find? (Text.lower name) with
  | none => rfl
  | some fs => exact List.mem_mergeSort

end Scope

end MathExpr
