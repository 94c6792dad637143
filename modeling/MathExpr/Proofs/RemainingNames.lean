import MathExpr.Proofs.Occurrence

/-!
# Names that remain

Substitution and the search for free names pass through the constructs that bind names on their own: the one
takes the bound names out of the scope, the other adds them to those that do not count. Both do so alike.
Where names are replaced by numbers, the names that have a value are free no more
(`Tree.FreeIn.eq_none_of_replace`), and nothing else changes: the free names are the ones without a value,
in the order in which they stood before (`Scope.freeNames_substitute`).

This is about trees without texts. The names in the slots of a text are free, but substitution leaves them
alone.
-/

namespace MathExpr

/-- A lookup all of whose values are numbers. -/
def Lookup.GivesNumbers (σ : Lookup) : Prop :=
  ∀ n v, σ (Text.lower n) = some v → ∃ x, v = .number x

theorem Lookup.GivesNumbers.isInert {σ : Lookup} (h : σ.GivesNumbers) : σ.IsInert := by
  intro n v hn
  obtain ⟨x, rfl⟩ := h _ _ hn
  rfl

theorem Lookup.GivesNumbers.hide {σ : Lookup} (h : σ.GivesNumbers) (names : List String) :
    (σ.hide names).GivesNumbers :=
  fun n v hn => h n v (hide_eq_some hn).2

namespace Tree

/-- Whether a tree is no text, nor any of its parts. -/
abbrev HasNoTexts (t : Tree) : Prop := t.Leaves fun v => v.kind ≠ "string"

/-- Each tree of a list is replaced on its own. -/
theorem getElem?_replaceAll (inner outer : Lookup) (count : Nat) (ts : List Tree) (i : Nat) :
    (replaceAll inner outer count ts)[i]? =
      ts[i]?.map (replace (if i < count then inner else outer)) := by
  induction ts generalizing count i with
  | nil => cases count <;> rfl
  | cons t ts ih =>
      cases count with
      | zero =>
          rw [replaceAll]
          cases i with
          | zero => rfl
          | succ i => exact ih 0 i
      | succ count =>
          rw [replaceAll]
          cases i with
          | zero => rfl
          | succ i =>
              rw [List.getElem?_cons_succ, List.getElem?_cons_succ, ih]
              simp only [Nat.add_lt_add_iff_right]

/-- A name that occurs free after a replacement by numbers has not been replaced. -/
theorem FreeIn.eq_none_of_replace {read : String → Outcome (Option Tree)} {t : Tree} (ht : t.HasNoTexts)
    {σ : Lookup} (hσ : σ.GivesNumbers) {bound : List String} {n : String}
    (h : (t.replace σ).FreeIn read bound n) : σ n = none := by
  induction t using ind generalizing σ bound with
  | leaf v =>
      cases v with
      | name s hints =>
          rw [replace] at h
          cases hs : σ (Text.lower s) with
          | some v =>
              obtain ⟨x, rfl⟩ := hσ _ _ hs
              rw [hs] at h
              cases h
          | none =>
              rw [hs] at h
              cases h
              exact hs
      | text => exact absurd rfl (leaves_leaf.1 ht)
      | _ => cases h
  | node head args ih =>
      rw [replace] at h
      cases h with
      | @argument _ _ _ i u _ hi hu =>
          rw [boundIn, binding_replaceAll hσ.isInert] at hu
          rw [getElem?_replaceAll] at hi
          obtain ⟨t, ht', rfl⟩ := Option.map_eq_some_iff.1 hi
          have hmem := List.mem_of_getElem? ht'
          have ih := @ih t hmem (leaves_node.1 ht t hmem)
          by_cases hinner : i < (binding head args).2
          · -- where names are bound they are hidden, but these do not occur free
            rw [if_pos hinner] at hu
            rw [if_pos hinner] at hu
            have hhidden := ih (hσ.hide _) hu
            have hn := fun hn => hu.not_mem (List.mem_append_left bound hn)
            rwa [Lookup.hide, if_neg hn] at hhidden
          · rw [if_neg hinner] at hu
            rw [if_neg hinner] at hu
            exact ih hσ hu

end Tree

/-! ### Trees without texts have free names -/

namespace FreeNames

variable {inText : List String → String → Outcome (List String)}

theorem exists_ofTreesWith {inner outer : List String} {ts : List Tree}
    (h : ∀ t ∈ ts, ∀ bound, ∃ names, ofTreeWith inText bound t = .ok names) (count : Nat)
    (found : List String) : ∃ names, ofTreesWith inText inner outer count found ts = .ok names := by
  induction ts generalizing count found with
  | nil => exact ⟨found, rfl⟩
  | cons t ts ih =>
      obtain ⟨more, hmore⟩ := h t List.mem_cons_self (if count = 0 then outer else inner)
      rw [ofTreesWith, hmore]
      exact ih (fun u hu => h u (List.mem_cons_of_mem t hu)) (count - 1) (union found more)

theorem exists_ofTreeWith {t : Tree} (ht : t.HasNoTexts) (bound : List String) :
    ∃ names, ofTreeWith inText bound t = .ok names := by
  induction t using Tree.ind generalizing bound with
  | leaf v =>
      cases v with
      | text => exact absurd rfl (Tree.leaves_leaf.1 ht)
      | _ => exact ⟨_, rfl⟩
  | node head args ih =>
      rw [ofTreeWith]
      exact exists_ofTreesWith (fun t hmem => ih t hmem (Tree.leaves_node.1 ht t hmem)) _ _

end FreeNames

namespace Scope

/-- **Names that remain.** In a tree without texts, let the names that have a value in a scope be replaced
by it, where all values are numbers. The free names of the tree that this gives are those of the tree that
have no value, in the same order. -/
theorem freeNames_substitute (s : Scope) (hs : ∀ n v, s.value? n = some v → ∃ x, v = .number x)
    (read : String → Outcome (Option Tree)) {t : Tree} (ht : t.HasNoTexts) (bound : List String) :
    ∃ u names, s.substitute true t = .ok u ∧ FreeNames.ofTree read bound t = .ok names ∧
      FreeNames.ofTree read bound u = .ok (names.filter fun n => !s.binds n) := by
  have hσ : s.lookup.GivesNumbers := hs
  obtain ⟨names, hnames⟩ : ∃ names, FreeNames.ofTree read bound t = .ok names :=
    FreeNames.exists_ofTreeWith ht bound
  refine ⟨t.replace s.lookup, names, substitute_eq_replace s t, hnames, ?_⟩
  have hsame : FreeNames.SameUpTo (fun n => !s.binds n)
      (FreeNames.ofTree read bound (t.replace s.lookup)) (FreeNames.ofTree read bound t) := by
    refine FreeNames.ofTree_replace read bound hσ.isInert (fun n v hn => ?_) t
    have hbinds : s.binds n = true := Option.isSome_iff_exists.2 ⟨v, hn⟩
    rw [binds_lower, hbinds]
    rfl
  cases hremaining : FreeNames.ofTree read bound (t.replace s.lookup) with
  | error e =>
      rw [hremaining, hnames] at hsame
      cases hsame
  | ok remaining =>
      rw [hremaining, hnames] at hsame
      -- none of the names that are still free has a value
      have hall : ∀ n ∈ remaining, (!s.binds n) = true := by
        intro n hn
        have hkey := FreeNames.areKeys_ofTree? read bound (some (t.replace s.lookup)) remaining hremaining n hn
        have hfree := FreeNames.freeIn_of_mem_ofTreeWith
          (fun _ _ latex _ h hn => FreeNames.freeIn_of_mem_ofTextWith latex h hn) hremaining hn
        have hnone := hfree.eq_none_of_replace ht hσ
        rw [binds, value?, hkey, show s.values.find? n = none from hnone]
        rfl
      rw [← Except.ok.inj hsame, List.filter_eq_self.2 hall]

/-- `map(map(x + y, [x, a + 1], b), x, [x, y])` -/
def nestedLoops : Tree :=
  let name (n : String) : Tree := .leaf (.name n [])
  .node (.call "map") [
    .node (.call "map") [.binary "+" (name "x") (name "y"),
      .node .list [name "x", .binary "+" (name "a") (.leaf (.nat 1))], name "b"],
    name "x",
    .node .list [name "x", name "y"]]

/-- The values of `x` and `a` take these names away, also where `x` is bound around it. -/
theorem freeNames_substitute_nestedLoops :
    nestedLoops.HasNoTexts ∧
      (∀ n v, ((empty.bind "x" (.nat 5)).bind "a" (.nat 3)).value? n = some v → ∃ x, v = .number x) ∧
      FreeNames.ofTree Tree.ofSource [] nestedLoops = .ok ["y", "a", "b", "x"] ∧
      ∃ u, ((empty.bind "x" (.nat 5)).bind "a" (.nat 3)).substitute true nestedLoops = .ok u ∧
        FreeNames.ofTree Tree.ofSource [] u = .ok ["y", "b"] := by
  have htexts : nestedLoops.HasNoTexts := by
    simp [nestedLoops, Tree.binary, Tree.HasNoTexts, Tree.leaves_node, Tree.leaves_leaf, Value.kind, Value.nat]
  have hvalues : ∀ n v, ((empty.bind "x" (.nat 5)).bind "a" (.nat 3)).value? n = some v →
      ∃ x, v = .number x := by
    intro n v hn
    rw [value?_bind, value?_bind] at hn
    split at hn
    · cases hn
      exact ⟨_, rfl⟩
    · split at hn
      · cases hn
        exact ⟨_, rfl⟩
      · cases hn
  have hbefore : FreeNames.ofTree Tree.ofSource [] nestedLoops = .ok ["y", "a", "b", "x"] := by
    decide +kernel
  obtain ⟨u, names, hu, hnames, hafter⟩ := freeNames_substitute _ hvalues Tree.ofSource htexts []
  rw [hbefore] at hnames
  cases hnames
  have hfilter : (["y", "a", "b", "x"].filter fun n =>
      !((empty.bind "x" (.nat 5)).bind "a" (.nat 3)).binds n) = ["y", "b"] := by
    decide +kernel
  exact ⟨htexts, hvalues, hbefore, u, hu, by rw [hafter, hfilter]⟩

end Scope

end MathExpr
