import MathExpr.Proofs.LowerCase
import MathExpr.Proofs.Registration
import MathExpr.Proofs.Tables

/-!
# Layers in groups

A scope is built from layers, and each of these may be a scope that is built from layers itself. How the
layers are grouped does not matter: the scope is the one of all layers in their order
(`Scope.ofLayers_parents`), with the same variables, signatures and rulesets, each under its name and in the
same place.

Variables and rulesets are replaced and signatures accumulate, but all three are gathered into a table in the
same way: what is under a key already is combined with what comes (`Table.gather`). If combining is
associative, then a table that has been gathered may be gathered as a whole in place of its entries
(`Table.gather_entries_gather`). Merging signatures is associative because sorting them by their serial
numbers is stable (`Signature.merge_assoc`), and that names are put in lower case once more changes nothing.
-/

namespace MathExpr

/-! ### Signatures in order -/

namespace Signature

/-- Sorting keeps the order of the signatures with one serial number. -/
theorem filter_inOrder (n : Nat) (fs : List Signature) :
    (inOrder fs).filter (·.serial == n) = fs.filter (·.serial == n) := by
  have hsame : (fs.filter (·.serial == n)).Pairwise fun f g => decide (f.serial ≤ g.serial) = true := by
    refine List.pairwise_of_forall_mem_list fun f hf g hg => ?_
    have hf := beq_iff_eq.1 (List.mem_filter.1 hf).2
    have hg := beq_iff_eq.1 (List.mem_filter.1 hg).2
    exact decide_eq_true (Nat.le_of_eq (hf.trans hg.symm))
  have hsub := (List.sublist_mergeSort (fun f g k => by simpa using Nat.le_trans)
    (fun f g => by simpa using Nat.le_total f.serial g.serial) hsame List.filter_sublist).filter
      (·.serial == n)
  rw [List.filter_filter] at hsub
  simp only [Bool.and_self] at hsub
  exact (hsub.eq_of_length ((List.mergeSort_perm fs _).filter _).length_eq.symm).symm

/-- Sorted signatures are determined by the order of those with one serial number. -/
theorem eq_of_filter_eq {fs gs : List Signature} (hfs : fs.Pairwise fun f g => f.serial ≤ g.serial)
    (hgs : gs.Pairwise fun f g => f.serial ≤ g.serial)
    (h : ∀ n, fs.filter (·.serial == n) = gs.filter (·.serial == n)) : fs = gs := by
  induction fs generalizing gs with
  | nil =>
      cases gs with
      | nil => rfl
      | cons g gs => simpa using h g.serial
  | cons f fs ih =>
      cases gs with
      | nil => simpa using h f.serial
      | cons g gs =>
          obtain ⟨hf, hfs'⟩ := List.pairwise_cons.1 hfs
          obtain ⟨hg, hgs'⟩ := List.pairwise_cons.1 hgs
          have hfirst : f.serial ≤ g.serial := by
            have hmem : g ∈ f :: fs := List.mem_of_mem_filter (p := (·.serial == g.serial)) (by simp [h])
            rcases List.mem_cons.1 hmem with rfl | hmem
            · exact Nat.le_refl _
            · exact hf g hmem
          have hfirst' : g.serial ≤ f.serial := by
            have hmem : f ∈ g :: gs := List.mem_of_mem_filter (p := (·.serial == f.serial)) (by simp [← h])
            rcases List.mem_cons.1 hmem with rfl | hmem
            · exact Nat.le_refl _
            · exact hg f hmem
          have hserial : f.serial = g.serial := Nat.le_antisymm hfirst hfirst'
          have hhead := h g.serial
          simp only [List.filter_cons, hserial, beq_self_eq_true, if_true, List.cons.injEq] at hhead
          obtain ⟨rfl, -⟩ := hhead
          refine congrArg (f :: ·) (ih hfs' hgs' fun n => ?_)
          have hrest := h n
          rw [List.filter_cons, List.filter_cons] at hrest
          split at hrest
          · exact (List.cons.inj hrest).2
          · exact hrest

theorem inOrder_congr {fs gs : List Signature}
    (h : ∀ n, fs.filter (·.serial == n) = gs.filter (·.serial == n)) : inOrder fs = inOrder gs :=
  eq_of_filter_eq (pairwise_inOrder fs) (pairwise_inOrder gs) fun n => by
    rw [filter_inOrder, filter_inOrder, h]

theorem isIn_merge (f : Signature) (fs gs : List Signature) :
    f.isIn (merge fs gs) = (f.isIn fs || f.isIn gs) := by
  rw [Bool.eq_iff_iff, Bool.or_eq_true]
  simp only [isIn_eq_true, List.mem_map]
  constructor
  · rintro ⟨g, hg, heq⟩
    rcases List.mem_append.1 ((List.mergeSort_perm _ _).mem_iff.1 hg) with hg | hg
    · exact .inl ⟨g, hg, heq⟩
    · exact .inr ⟨g, List.mem_of_mem_filter hg, heq⟩
  · intro h
    by_cases hfs : ∃ g ∈ fs, g.serial = f.serial
    · obtain ⟨g, hg, heq⟩ := hfs
      exact ⟨g, (List.mergeSort_perm _ _).mem_iff.2 (List.mem_append_left _ hg), heq⟩
    · obtain ⟨g, hg, heq⟩ := h.resolve_left hfs
      have hnew : g.isIn fs = false := by
        rw [Bool.eq_false_iff, Ne, isIn_eq_true, List.mem_map, heq]
        exact hfs
      have hmem : g ∈ gs.filter fun g => !g.isIn fs := List.mem_filter.2 ⟨hg, by simp [hnew]⟩
      exact ⟨g, (List.mergeSort_perm _ _).mem_iff.2 (List.mem_append_right _ hmem), heq⟩

theorem filter_merge (n : Nat) (fs gs : List Signature) : (merge fs gs).filter (·.serial == n) =
    fs.filter (·.serial == n) ++ (gs.filter fun g => !g.isIn fs).filter (·.serial == n) :=
  (filter_inOrder n _).trans (List.filter_append _ _)

/-- Signatures may be merged in groups. -/
theorem merge_assoc (fs gs hs : List Signature) : merge fs (merge gs hs) = merge (merge fs gs) hs := by
  have hnew : hs.filter (fun h => !h.isIn (merge fs gs)) =
      (hs.filter fun h => !h.isIn gs).filter fun h => !h.isIn fs := by
    simp only [List.filter_filter, isIn_merge, Bool.not_or]
  refine inOrder_congr fun n => ?_
  calc (fs ++ (merge gs hs).filter fun h => !h.isIn fs).filter (·.serial == n)
      = fs.filter (·.serial == n) ++ ((merge gs hs).filter (·.serial == n)).filter fun h => !h.isIn fs := by
        rw [List.filter_append, List.filter_comm]
    _ = fs.filter (·.serial == n) ++ ((gs.filter fun g => !g.isIn fs).filter (·.serial == n) ++
          (hs.filter fun h => !h.isIn (merge fs gs)).filter (·.serial == n)) := by
        rw [filter_merge, List.filter_append, hnew,
          List.filter_comm (fun h : Signature => h.serial == n) (fun h => !h.isIn fs) gs,
          List.filter_comm (fun h : Signature => h.serial == n) (fun h => !h.isIn fs)]
    _ = (merge fs gs ++ hs.filter fun h => !h.isIn (merge fs gs)).filter (·.serial == n) := by
        rw [List.filter_append, filter_merge, List.append_assoc]

theorem merge_inOrder (fs gs : List Signature) : merge fs (inOrder gs) = merge fs gs :=
  inOrder_congr fun n => by
    rw [List.filter_append, List.filter_append, List.filter_comm, filter_inOrder, List.filter_comm]

theorem merge_nil (gs : List Signature) : merge [] gs = inOrder gs := by
  have hnew : (gs.filter fun g => !g.isIn []) = gs := List.filter_eq_self.2 fun _ _ => rfl
  rw [merge, hnew, List.nil_append]

/-- The signatures of a name with more. -/
def mergeInto (fs : Option (List Signature)) (gs : List Signature) : List Signature := merge (fs.getD []) gs

theorem combines_mergeInto : Table.Combines mergeInto where
  none _ gs := (congrArg (merge _) (merge_nil gs)).trans (merge_inOrder _ gs)
  some _ gs hs := merge_assoc _ gs hs

end Signature

/-! ### Layers -/

namespace Table

variable {α : Type} {t : Table α}

/-- The entries of a table with their keys in lower case. -/
def lowered (t : Table α) : List (String × α) := t.entries.map fun e => (Text.lower e.1, e.2)

/-- A table with keys that are in lower case, and differ. -/
structure IsLower (t : Table α) : Prop where
  nodup : t.keys.Nodup
  lower : ∀ k ∈ t.keys, Text.lower k = k

theorem IsLower.lowered_eq (h : t.IsLower) : t.lowered = t.entries := by
  refine (List.map_congr_left fun e he => ?_).trans (List.map_id _)
  exact congrArg (·, e.2) (h.lower e.1 (List.mem_map_of_mem he))

theorem IsLower.gather (combine : Option α → α → α) (h : t.IsLower) (t' : Table α) :
    (t.gather combine t'.lowered).IsLower where
  nodup := nodup_keys_gather combine h.nodup t'.lowered
  lower := forall_keys_gather combine h.lower fun e he => by
    obtain ⟨e', -, rfl⟩ := List.mem_map.1 he
    exact Text.lower_lower e'.1

end Table

namespace Scope

theorem merge_eq (s : Scope) (l : Layer) : s.merge l =
    { values := s.values.gather (fun _ a => a) l.values.lowered
      functions := s.functions.gather Signature.mergeInto l.functions.lowered
      rulesets := s.rulesets.gather (fun _ a => a) l.rulesets.entries
      frozen := s.frozen } := by
  have hfunctions : s.functions.gather Signature.mergeInto l.functions.lowered = (s.merge l).functions :=
    List.foldl_map
  rw [hfunctions]
  rfl

/-- The tables of a scope that is built from layers. -/
structure IsBuilt (s : Scope) : Prop where
  values : s.values.IsLower
  functions : s.functions.IsLower
  rulesets : s.rulesets.keys.Nodup

theorem IsBuilt.merge {s : Scope} (h : s.IsBuilt) (l : Layer) : (s.merge l).IsBuilt := by
  rw [merge_eq]
  exact ⟨h.values.gather (fun _ a => a) l.values, h.functions.gather Signature.mergeInto l.functions,
    Table.nodup_keys_gather (fun _ a => a) h.rulesets l.rulesets.entries⟩

/-- A scope that has been built comes before one more layer. -/
theorem merge_merge (s : Scope) {s' : Scope} (h : s'.IsBuilt) (l : Layer) :
    s.merge (s'.merge l).toLayer = (s.merge s'.toLayer).merge l := by
  have hbuilt := h.merge l
  rw [merge_eq s' l] at hbuilt
  simp only [merge_eq, hbuilt.values.lowered_eq, hbuilt.functions.lowered_eq, h.values.lowered_eq,
    h.functions.lowered_eq, Table.gather_entries_gather Table.combines_replace _ h.values.nodup,
    Table.gather_entries_gather Table.combines_replace _ h.rulesets,
    Table.gather_entries_gather Signature.combines_mergeInto _ h.functions.nodup]

/-- A scope that is built from layers counts as these layers. -/
theorem merge_foldl_merge (s : Scope) {s' : Scope} (h : s'.IsBuilt) (ls : List Layer) :
    s.merge (ls.foldl merge s').toLayer = ls.foldl merge (s.merge s'.toLayer) := by
  induction ls generalizing s' with
  | nil => rfl
  | cons l ls ih => rw [List.foldl_cons, ih (h.merge l), merge_merge s h, List.foldl_cons]

theorem isBuilt_empty : empty.IsBuilt :=
  ⟨⟨List.nodup_nil, List.forall_mem_nil _⟩, ⟨List.nodup_nil, List.forall_mem_nil _⟩, List.nodup_nil⟩

theorem merge_ofLayers (s : Scope) (ls : List Layer) : s.merge (ofLayers ls).toLayer = ls.foldl merge s :=
  merge_foldl_merge s isBuilt_empty ls

end Scope

/-- What a scope is built from: a layer, or a scope that is built from such parents itself. -/
inductive Parent where
  | layer (l : Layer)
  | scope (parents : List Parent)

namespace Parent

mutual

/-- The entries of a parent. -/
def toLayer : Parent → Layer
  | layer l => l
  | scope ps => (Scope.ofLayers (toLayers ps)).toLayer

def toLayers : List Parent → List Layer
  | [] => []
  | p :: ps => toLayer p :: toLayers ps

end

mutual

/-- The layers that a parent comes from, in order. -/
def layers : Parent → List Layer
  | layer l => [l]
  | scope ps => layersOf ps

def layersOf : List Parent → List Layer
  | [] => []
  | p :: ps => layers p ++ layersOf ps

end

mutual

/-- A parent counts as the layers that it comes from. -/
theorem merge_toLayer (s : Scope) : (p : Parent) → s.merge p.toLayer = p.layers.foldl Scope.merge s
  | layer l => by rw [toLayer, layers, List.foldl_cons, List.foldl_nil]
  | scope ps => by rw [toLayer, layers, Scope.merge_ofLayers, foldl_merge_toLayers s ps]

theorem foldl_merge_toLayers (s : Scope) : (ps : List Parent) →
    (toLayers ps).foldl Scope.merge s = (layersOf ps).foldl Scope.merge s
  | [] => by rw [toLayers, layersOf]
  | p :: ps => by
      rw [toLayers, layersOf, List.foldl_cons, List.foldl_append, merge_toLayer s p,
        foldl_merge_toLayers _ ps]

end

end Parent

/-- **Layers in groups.** A scope that is built from scopes, which are built from layers or from scopes in
turn, is the scope of all these layers in their order: it has the same variables, signatures and rulesets. -/
theorem Scope.ofLayers_parents (ps : List Parent) :
    ofLayers (Parent.toLayers ps) = ofLayers (Parent.layersOf ps) :=
  Parent.foldl_merge_toLayers empty ps

end MathExpr
