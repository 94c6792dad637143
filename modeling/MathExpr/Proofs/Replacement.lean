import MathExpr.Proofs.Bindings
import MathExpr.Proofs.Trees
import MathExpr.Substitute
import Mathlib.Data.List.Basic

/-!
# Replacing names by values

Where names without a value are allowed, substitution always gives a tree, and that tree
depends on the scope only through the values of the names. `Tree.replace` is this tree
as a function of a lookup of values by key (`Scope.substitute_eq_replace`); where a
construct binds names they are hidden from the lookup.

The names that a construct binds, and those that it gives to a loop, are the same before
and after, because they are hidden where they stand (`boundKeys_replace`).
-/

namespace MathExpr

/-- Whether a value stands for itself wherever it is put: it is no name, and no text with
braces. -/
def Value.isInert : Value → Bool
  | name .. => false
  | text s _ _ => !s.toList.any Text.isBrace
  | _ => true

theorem Value.name?_of_isInert {v : Value} (h : v.isInert = true) :
    (Tree.leaf v).name? = none := by
  cases v with
  | name => cases h
  | _ => rfl

/-- The values of some names, by key. -/
abbrev Lookup := String → Option Value

/-- A lookup all of whose values are inert. -/
def Lookup.IsInert (σ : Lookup) : Prop :=
  ∀ n v, σ (Text.lower n) = some v → v.isInert = true

/-- A lookup from which some keys are hidden. -/
def Lookup.hide (names : List String) (σ : Lookup) : Lookup :=
  fun k => if k ∈ names then none else σ k

theorem Lookup.hide_of_mem {names : List String} {k : String} (h : k ∈ names) (σ : Lookup) :
    σ.hide names k = none := if_pos h

/-- A hidden lookup gives the values that it gives from the one it is made of. -/
theorem Lookup.hide_eq_some {names : List String} {σ : Lookup} {k : String} {v : Value}
    (h : σ.hide names k = some v) : k ∉ names ∧ σ k = some v := by
  unfold Lookup.hide at h
  split at h
  · cases h
  · exact ⟨‹_›, h⟩

theorem Lookup.IsInert.hide {σ : Lookup} (h : σ.IsInert) (names : List String) :
    (σ.hide names).IsInert :=
  fun n v hn => h n v (hide_eq_some hn).2

namespace Tree

mutual

/-- A tree with names replaced by the values that a lookup gives them. -/
def replace (σ : Lookup) : Tree → Tree
  | leaf (.name n hints) =>
    match σ (Text.lower n) with
    | some v => leaf v
    | none => leaf (.name n hints)
  | leaf v => leaf v
  | node h args =>
    node h (replaceAll (σ.hide (binding h args).1) σ (binding h args).2 args)

/-- The trees of a list with names replaced: by `inner` in the first `count` trees, by
`outer` in all others. -/
def replaceAll (inner outer : Lookup) : (count : Nat) → List Tree → List Tree
  | _, [] => []
  | 0, t :: ts => replace outer t :: replaceAll inner outer 0 ts
  | count + 1, t :: ts => replace inner t :: replaceAll inner outer count ts

end

theorem replaceAll_zero (inner outer : Lookup) (ts : List Tree) :
    replaceAll inner outer 0 ts = ts.map (replace outer) := by
  induction ts with
  | nil => rfl
  | cons t ts ih => rw [replaceAll, ih, List.map_cons]

theorem length_replaceAll (inner outer : Lookup) (count : Nat) (ts : List Tree) :
    (replaceAll inner outer count ts).length = ts.length := by
  induction ts generalizing count with
  | nil => cases count <;> rfl
  | cons t ts ih =>
      cases count with
      | zero => rw [replaceAll, List.length_cons, ih, List.length_cons]
      | succ count => rw [replaceAll, List.length_cons, ih, List.length_cons]

/-- A node that binds no names has its names replaced in all arguments alike. -/
theorem replace_node (σ : Lookup) {h : Head} {args : List Tree}
    (hb : binding h args = ([], 0)) : (node h args).replace σ = node h (args.map (replace σ)) := by
  rw [replace, hb, replaceAll_zero]

/-! ### Keys -/

theorem lower_key {t : Tree} {k : String} (h : t.key? = some k) : Text.lower k = k := by
  obtain ⟨n, -, rfl⟩ := Option.map_eq_some_iff.1 h
  exact Text.lower_lower n

/-- The keys that a tree binds are keys. -/
theorem lower_of_mem_boundKeys {t : Tree} {k : String} (h : k ∈ t.boundKeys) :
    Text.lower k = k := by
  unfold boundKeys at h
  split at h
  · rw [List.mem_singleton.1 h]
    exact lower_key ‹_›
  · obtain ⟨u, -, hu⟩ := List.mem_filterMap.1 h
    exact lower_key hu
  · cases h

theorem map_lower_boundKeys (t : Tree) : t.boundKeys.map Text.lower = t.boundKeys := by
  refine (List.map_congr_left fun k hk => ?_).trans (List.map_id _)
  exact lower_of_mem_boundKeys hk

/-- The forms of a node that binds names; a node of another form, however its arguments
change, binds none. -/
theorem binding_cases (h : Head) (args : List Tree) :
    (∃ u names rest, h.key? = some "map" ∧ args = u :: names :: rest ∧
      binding h args = (names.boundKeys, 2)) ∨
    (∃ names u rest, h.key? = some "satisfy" ∧ args = names :: u :: rest ∧
      binding h args = (names.boundKeys, 3)) ∨
    ∀ others : List Tree, others.length = args.length → binding h others = ([], 0) := by
  rcases args with _ | ⟨t, _ | ⟨u, rest⟩⟩
  · refine .inr (.inr fun others hlength => ?_)
    rw [List.length_eq_zero_iff.1 hlength]
    unfold binding
    split <;> simp_all
  · refine .inr (.inr fun others hlength => ?_)
    obtain ⟨x, rfl⟩ := List.length_eq_one_iff.1 hlength
    unfold binding
    split <;> simp_all
  · by_cases hmap : h.key? = some "map"
    · exact .inl ⟨t, u, rest, hmap, rfl, by simp only [binding, hmap]⟩
    · by_cases hsatisfy : h.key? = some "satisfy"
      · exact .inr (.inl ⟨t, u, rest, hsatisfy, rfl, by simp only [binding, hsatisfy]⟩)
      · refine .inr (.inr fun others hlength => ?_)
        unfold binding
        split
        · exact absurd ‹_› hmap
        · exact absurd ‹_› hsatisfy
        · rfl

theorem map_lower_binding (h : Head) (args : List Tree) :
    (binding h args).1.map Text.lower = (binding h args).1 := by
  rcases binding_cases h args with ⟨_, names, _, -, -, heq⟩ | ⟨names, _, _, -, -, heq⟩ | hnone
  · rw [heq]
    exact map_lower_boundKeys names
  · rw [heq]
    exact map_lower_boundKeys names
  · rw [hnone args rfl]
    rfl

/-! ### Names that are bound stay -/

/-- A name stays if it is hidden. -/
theorem name?_replace {σ : Lookup} {t : Tree}
    (hkey : ∀ k, t.key? = some k → σ k = none) : (t.replace σ).name? = t.name? := by
  cases t with
  | node h args => rfl
  | leaf v =>
      cases v with
      | name n hints =>
          rw [replace, hkey (Text.lower n) rfl]
      | _ => rfl

/-- A name that is replaced is none any more, and nothing else becomes a name. -/
theorem key?_replace {σ : Lookup} (hσ : σ.IsInert) (t : Tree) :
    (t.replace σ).key? = t.key?.filter fun k => (σ k).isNone := by
  cases t with
  | node h args => rfl
  | leaf v =>
      cases v with
      | name n hints =>
          show _ = (some (Text.lower n)).filter _
          rw [replace, Option.filter_some]
          cases hn : σ (Text.lower n) with
          | none => rfl
          | some v =>
              cases v with
              | name => exact absurd (hσ _ _ hn) Bool.false_ne_true
              | _ => rfl
      | _ => rfl

/-- A list literal stays one, with its elements replaced. -/
theorem elements?_replace (σ : Lookup) (t : Tree) :
    (t.replace σ).elements? = t.elements?.map (List.map (replace σ)) := by
  cases t with
  | leaf v =>
      cases v with
      | name n hints =>
          rw [replace]
          cases σ (Text.lower n) <;> rfl
      | _ => rfl
  | node h args =>
      cases h with
      | list => exact congrArg elements? (replace_node σ rfl)
      | _ => rfl

/-- The names that a tree binds stay where they are hidden. -/
theorem boundKeys_replace {σ : Lookup} (hσ : σ.IsInert) {t : Tree}
    (hbound : ∀ k ∈ t.boundKeys, σ k = none) : (t.replace σ).boundKeys = t.boundKeys := by
  unfold boundKeys at hbound ⊢
  rw [key?_replace hσ, elements?_replace]
  cases hkey : t.key? with
  | some k =>
      have hk : σ k = none := by
        rw [hkey] at hbound
        exact hbound k List.mem_cons_self
      rw [Option.filter_some, hk]
      rfl
  | none =>
      rw [hkey] at hbound
      cases helements : t.elements? with
      | none => rfl
      | some items =>
          rw [helements] at hbound
          show (items.map (replace σ)).filterMap key? = items.filterMap key?
          rw [List.filterMap_map]
          refine List.filterMap_congr fun u hu => ?_
          show (u.replace σ).key? = u.key?
          rw [key?_replace hσ]
          cases hu' : u.key? with
          | none => rfl
          | some k =>
              rw [Option.filter_some, hbound k (List.mem_filterMap.2 ⟨u, hu, hu'⟩)]
              rfl

/-- A node binds the same names before and after they are replaced in its arguments. -/
theorem binding_replaceAll {σ : Lookup} (hσ : σ.IsInert) (h : Head) (args : List Tree) :
    binding h (replaceAll (σ.hide (binding h args).1) σ (binding h args).2 args) =
      binding h args := by
  have hnames (names : Tree) :
      (names.replace (σ.hide names.boundKeys)).boundKeys = names.boundKeys :=
    boundKeys_replace (hσ.hide names.boundKeys) fun k hk => Lookup.hide_of_mem hk σ
  rcases binding_cases h args with
    ⟨u, names, rest, hkey, rfl, heq⟩ | ⟨names, u, rest, hkey, rfl, heq⟩ | hnone
  · rw [heq]
    simp only [replaceAll, binding, hkey, hnames]
  · rw [heq]
    simp only [replaceAll, binding, hkey, hnames]
  · rw [hnone args rfl]
    exact hnone _ (length_replaceAll _ _ _ _)

end Tree

/-! ### Substitution is replacement -/

namespace Scope

/-- The lookup of the variables of a scope. -/
def lookup (s : Scope) : Lookup := s.values.find?

theorem lookup_without (s : Scope) (names : List String)
    (h : names.map Text.lower = names) : (s.without names).lookup = s.lookup.hide names := by
  funext k
  show (s.without names).values.find? k = _
  rw [find?_without, h]
  rfl

mutual

/-- Substitution where names without a value are allowed replaces names by values. -/
theorem substitute_eq_replace (s : Scope) : (t : Tree) →
    s.substitute true t = .ok (t.replace s.lookup)
  | .leaf v => by
      cases v with
      | name n hints =>
          unfold substitute Tree.replace lookup value?
          cases s.values.find? (Text.lower n) <;> rfl
      | _ => rfl
  | .node h args => by
      rw [substitute, Tree.replace]
      simp only [Bool.true_or]
      rw [substituteAll_eq_replaceAll _ s _ args, lookup_without s _ (Tree.map_lower_binding h args)]
      rfl

theorem substituteAll_eq_replaceAll (inner outer : Scope) (count : Nat) : (ts : List Tree) →
    substituteAll inner outer count true ts =
      .ok (Tree.replaceAll inner.lookup outer.lookup count ts)
  | [] => by
      cases count <;> rfl
  | t :: ts => by
      cases count with
      | zero =>
          rw [substituteAll, if_pos rfl, substitute_eq_replace outer t,
            substituteAll_eq_replaceAll inner outer (0 - 1) ts]
          rfl
      | succ count =>
          rw [substituteAll, if_neg (by omega), substitute_eq_replace inner t,
            substituteAll_eq_replaceAll inner outer (count + 1 - 1) ts]
          rfl

end

end Scope

end MathExpr
