import MathExpr.Library.Scope
import MathExpr.Proofs.Evaluation

/-!
# The built-in scope

The built-in scope has no variables, its constructs stand under their own names, and the
signatures of a name are those of the built-in list that have the name, in the same order
(`Library.signatures_scope`). They are in order of their serial numbers, so that a child
of the built-in scope only differs in that it may be changed (`Library.child_scope`). A
scope with these functions and no variables is one that holds the built-in functions
(`Scope.HoldsBuiltIns`); none of them is a custom function.
-/

namespace MathExpr

namespace Scope

variable {s : Scope}

/-! ### Adding signatures -/

theorem signatures_addSignature (s : Scope) (f : Signature) (name : String) :
    (s.addSignature f).signatures name =
      if Text.lower name = Text.lower f.name then s.signatures name ++ [f] else s.signatures name := by
  show ((s.functions.insert _ _).find? _).getD [] = _
  rw [Table.find?_insert]
  split
  · rename_i hname
    show s.signatures f.name ++ [f] = s.signatures name ++ [f]
    unfold signatures
    rw [hname]
  · rfl

/-- Signatures are added after those that their name has, in order. -/
theorem signatures_addSignatures (s : Scope) (fs : List Signature) (name : String) :
    (fs.foldl addSignature s).signatures name =
      s.signatures name ++ fs.filter fun f => Text.lower name == Text.lower f.name := by
  induction fs generalizing s with
  | nil => exact (List.append_nil _).symm
  | cons f rest ih =>
      rw [List.foldl_cons, ih, signatures_addSignature, List.filter_cons]
      by_cases hname : Text.lower name = Text.lower f.name
      · rw [if_pos hname, if_pos (beq_iff_eq.2 hname), List.append_assoc]
        rfl
      · rw [if_neg hname, if_neg (by simpa using hname)]

/-- Signatures that are added in order of their serial numbers stay in this order. -/
theorem pairwise_addSignatures {fs : List Signature}
    (h : ∀ e ∈ s.functions.entries, (e.2 ++ fs).Pairwise fun f g => f.serial ≤ g.serial)
    (hfs : fs.Pairwise fun f g => f.serial ≤ g.serial) :
    ∀ e ∈ (fs.foldl addSignature s).functions.entries,
      e.2.Pairwise fun f g => f.serial ≤ g.serial := by
  induction fs generalizing s with
  | nil =>
      intro e he
      have hnil := h e he
      rw [List.append_nil] at hnil
      exact hnil
  | cons f rest ih =>
      refine ih (fun e he => ?_) hfs.of_cons
      rcases Table.mem_insertInto he with he | rfl
      · refine (h e he).sublist ?_
        exact List.append_sublist_append_left e.2 |>.2 (List.sublist_cons_self f rest)
      · show (s.signatures f.name ++ [f] ++ rest).Pairwise _
        rw [List.append_assoc]
        unfold signatures
        cases hfind : s.functions.find? (Text.lower f.name) with
        | none => exact hfs
        | some gs => exact h _ (Table.mem_of_find?_eq_some hfind)

/-- A scope whose signatures are in order only differs from its children in that it may be
frozen. -/
theorem child_eq_of_pairwise
    (h : ∀ e ∈ s.functions.entries, e.2.Pairwise fun f g => f.serial ≤ g.serial) :
    s.child = { s with frozen := false } := by
  have hentries : s.functions.mapEntries Signature.inOrder = s.functions := by
    show Table.mk (s.functions.entries.map fun e => (e.1, Signature.inOrder e.2)) = s.functions
    have hmap : s.functions.entries.map (fun e => (e.1, Signature.inOrder e.2)) =
        s.functions.entries.map id := by
      refine List.map_congr_left fun e he => ?_
      have hsorted : Signature.inOrder e.2 = e.2 :=
        List.mergeSort_of_pairwise ((h e he).imp fun hle => decide_eq_true hle)
      rw [hsorted]
      rfl
    rw [hmap, List.map_id]
  unfold child
  rw [hentries]

/-! ### Adding rulesets -/

theorem functions_addRulesets (s : Scope) (rs : List (String × Ruleset)) :
    (rs.foldl (fun s r => s.addRuleset r.1 (.ruleset r.2)) s).functions = s.functions := by
  induction rs generalizing s with
  | nil => rfl
  | cons r rest ih => exact ih (s.addRuleset r.1 (.ruleset r.2))

end Scope

namespace Library

theorem functions_scope : scope.functions = (signatures.foldl Scope.addSignature .empty).functions :=
  Scope.functions_addRulesets _ rulesets.entries

/-- The signatures of a name, in the order in which they are listed. -/
theorem signatures_scope (name : String) :
    scope.signatures name = signatures.filter fun f => Text.lower name == Text.lower f.name := by
  unfold Scope.signatures
  rw [functions_scope]
  exact Scope.signatures_addSignatures .empty signatures name

/-- The built-in signatures are numbered in order. -/
theorem pairwise_signatures : signatures.Pairwise fun f g => f.serial ≤ g.serial := by
  unfold signatures
  rw [List.pairwise_map, List.pairwise_iff_getElem]
  intro i j hi hj hij
  simp only [List.getElem_zipIdx]
  omega

/-- A child of the built-in scope only differs from it in that it may be changed. -/
theorem child_scope : scope.child = { scope with frozen := false } := by
  refine Scope.child_eq_of_pairwise ?_
  rw [functions_scope]
  refine Scope.pairwise_addSignatures (fun e he => ?_) pairwise_signatures
  cases he

/-- The built-in scope has no variables. -/
theorem values_scope : scope.values = .empty := rfl

theorem value?_scope (n : String) : scope.value? n = none := by
  unfold Scope.value?
  rw [values_scope]
  rfl

/-- What holds of each built-in signature under its name holds of the built-in scope. -/
theorem eachSignature_scope {P : String → Signature → Prop}
    (h : ∀ f ∈ signatures, P (Text.lower f.name) f) : scope.EachSignature P := by
  intro name f hf
  rw [signatures_scope] at hf
  obtain ⟨hf, hname⟩ := List.mem_filter.1 hf
  rw [beq_iff_eq.1 hname]
  exact h f hf

/-- A signature of a construct has the name of the construct. -/
def isOwnName (f : Signature) : Bool :=
  match f.body with
  | .construct c => Text.lower f.name == c.name
  | _ => true

theorem lower_name_of_construct {f : Signature} (hf : f ∈ signatures) {c : Construct}
    (hc : f.body = .construct c) : Text.lower f.name = c.name := by
  have hall : signatures.all isOwnName = true := by decide +kernel
  have hnamed := List.all_eq_true.1 hall f hf
  unfold isOwnName at hnamed
  rw [hc] at hnamed
  exact beq_iff_eq.1 hnamed

/-- The built-in scope is regular. -/
theorem isRegular_scope : scope.IsRegular :=
  eachSignature_scope fun _ hf _ hc => lower_name_of_construct hf hc

/-- A scope in which built-in functions stand under their own names is regular. -/
theorem isRegular_of_eachSignature {s : Scope}
    (h : s.EachSignature fun key f => f ∈ signatures ∧ key = Text.lower f.name) : s.IsRegular := by
  intro name f hf c hc
  obtain ⟨hmem, hname⟩ := h name f hf
  rw [hname]
  exact lower_name_of_construct hmem hc

/-- Whether the body of a signature is a tree. -/
def isCustom (f : Signature) : Bool :=
  match f.body with
  | .custom .. => true
  | _ => false

/-- No built-in function is custom. -/
theorem body_ne_custom {f : Signature} (hf : f ∈ signatures) (parameters : List String)
    (result : String) (t : Tree) : f.body ≠ .custom parameters result t := by
  intro hcustom
  have hall : signatures.all (fun f => !isCustom f) = true := by decide +kernel
  have hbuiltin := List.all_eq_true.1 hall f hf
  unfold isCustom at hbuiltin
  rw [hcustom] at hbuiltin
  cases hbuiltin

end Library

namespace Scope

/-- A scope that holds only built-in functions, under their own names, and no variables. -/
structure HoldsBuiltIns (s : Scope) : Prop where
  value?_eq_none : ∀ n, s.value? n = none
  eachSignature : s.EachSignature fun key f => f ∈ Library.signatures ∧ key = Text.lower f.name

theorem holdsBuiltIns_scope : Library.scope.HoldsBuiltIns where
  value?_eq_none := Library.value?_scope
  eachSignature := Library.eachSignature_scope fun _ hf => ⟨hf, rfl⟩

namespace HoldsBuiltIns

variable {s : Scope}

theorem isRegular (h : s.HoldsBuiltIns) : s.IsRegular :=
  Library.isRegular_of_eachSignature h.eachSignature

theorem body_ne_custom (h : s.HoldsBuiltIns) :
    s.EachSignature fun _ f => ∀ parameters result t, f.body ≠ .custom parameters result t :=
  fun name f hf => Library.body_ne_custom (h.eachSignature name f hf).1

end HoldsBuiltIns

end Scope

end MathExpr
