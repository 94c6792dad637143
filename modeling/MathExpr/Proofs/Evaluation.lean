import MathExpr.Evaluate
import MathExpr.Proofs.Bindings
import MathExpr.Proofs.Outcome

/-!
# Evaluation of arguments

The functions on lists of trees that evaluation is made of are maps over the lists. An
argument of a construct is the tree together with two ways to evaluate it
(`Evaluate.suspended`).

What holds of each signature of a scope (`Scope.EachSignature`) holds of the scopes that
are built from it. A scope is *regular* if each construct stands under its own name.
-/

namespace MathExpr

namespace Evaluate

variable (deeper : Evaluator)

theorem trees_eq_mapM (s : Scope) (allowUnbound : Bool) (ts : List Tree) :
    trees deeper s allowUnbound ts = ts.mapM (tree deeper s allowUnbound) := by
  induction ts with
  | nil => rfl
  | cons t ts ih => rw [trees, ih, List.mapM_cons]

theorem values_eq_map (ts : List Tree) :
    values deeper ts = ts.map fun t s => tree deeper s false t := by
  induction ts with
  | nil => rfl
  | cons t ts ih => rw [values, ih, List.map_cons]

/-- A tree as an argument of a construct. -/
def suspended (t : Tree) : Suspended :=
  ⟨t, fun s => tree deeper s false t, parts deeper t⟩

theorem suspend_eq_map (ts : List Tree) :
    suspend deeper ts = ts.map (suspended deeper) := by
  induction ts with
  | nil => rfl
  | cons t ts ih => rw [suspend, ih, List.map_cons, suspended]

/-- A construct that is called gets its arguments as they are. -/
theorem tree_of_construct {s : Scope} {h : Head} {name : String} {c c' : Construct} {f : Signature}
    {rest : List Signature} (hname : h.name? = some name) (hc : h.key?.bind Construct.ofName? = some c)
    (hfs : s.signatures name = f :: rest) (hbody : f.body = .construct c') (allowUnbound : Bool)
    (args : List Tree) :
    tree deeper s allowUnbound (.node h args) = c'.eval s (suspend deeper args) := by
  unfold tree
  rw [hname]
  simp only [hc, hfs, hbody]

end Evaluate

/-! ### What holds of each signature -/

theorem Signature.mem_of_mem_merge {fs gs : List Signature} {f : Signature}
    (h : f ∈ merge fs gs) : f ∈ fs ∨ f ∈ gs := by
  rcases List.mem_append.1 (List.mem_mergeSort.1 h) with h | h
  · exact .inl h
  · exact .inr (List.mem_filter.1 h).1

namespace Scope

/-- Something holds of each signature of a scope and the key under which it stands. -/
def EachSignature (P : String → Signature → Prop) (s : Scope) : Prop :=
  ∀ name, ∀ f ∈ s.signatures name, P (Text.lower name) f

namespace EachSignature

variable {P : String → Signature → Prop} {s : Scope}

theorem child (h : s.EachSignature P) : s.child.EachSignature P :=
  fun name f hf => h name f (mem_signatures_child.1 hf)

theorem bind (h : s.EachSignature P) (name : String) (v : Value) :
    (s.bind name v).EachSignature P :=
  h

theorem bindAll (h : s.EachSignature P) (bindings : List (String × Value)) :
    (s.bindAll bindings).EachSignature P := by
  induction bindings generalizing s with
  | nil => exact h
  | cons b rest ih => exact ih (h.bind b.1 b.2)

/-- The signatures of one name may be replaced by others. -/
theorem insert (h : s.EachSignature P) {name : String} {fs : List Signature}
    (hfs : ∀ f ∈ fs, P (Text.lower name) f) :
    EachSignature P { s with functions := s.functions.insert (Text.lower name) fs } := by
  intro n f hf
  change f ∈ (Table.find? _ _).getD [] at hf
  rw [Table.find?_insert] at hf
  split at hf
  · rename_i hn
    rw [hn]
    exact hfs f hf
  · exact h n f hf

theorem addSignature (h : s.EachSignature P) {f : Signature} (hf : P (Text.lower f.name) f) :
    (s.addSignature f).EachSignature P := by
  refine h.insert fun g hg => ?_
  rcases List.mem_append.1 hg with hg | hg
  · exact h f.name g hg
  · rw [List.mem_singleton.1 hg]
    exact hf

/-- A layer may be laid over the scope if the same holds of its signatures. -/
theorem merge (h : s.EachSignature P) {l : Layer}
    (hl : ∀ e ∈ l.functions.entries, ∀ f ∈ e.2, P (Text.lower e.1) f) :
    (s.merge l).EachSignature P := by
  show EachSignature P { s with functions := List.foldl _ s.functions l.functions.entries }
  generalize l.functions.entries = entries at hl
  induction entries generalizing s with
  | nil => exact h
  | cons e rest ih =>
      refine ih (h.insert fun f hf => ?_) fun e' he' => hl e' (List.mem_cons_of_mem e he')
      rcases Signature.mem_of_mem_merge hf with hf | hf
      · exact h e.1 f hf
      · exact hl e List.mem_cons_self f hf

end EachSignature

/-- The scope in which a loop evaluates its item. -/
theorem EachSignature.loopScope {P : String → Signature → Prop} {s : Scope}
    (h : s.EachSignature P) (v : Value) (names : Construct.LoopNames) :
    (Construct.loopScope s v names).EachSignature P := by
  cases names with
  | single name => exact h.child.bind name v
  | several names => exact h.child.bindAll _

/-- Each construct of a scope stands under its own name. -/
abbrev IsRegular (s : Scope) : Prop :=
  s.EachSignature fun key f => ∀ c, f.body = .construct c → key = c.name

end Scope

end MathExpr
