import MathExpr.Proofs.Agreement
import MathExpr.Proofs.FunctionNames

/-!
# What an evaluation depends on

Two scopes with the same built-in functions give a tree the same value if they agree on
its free names (`Scope.eval_eq_of_agree_on_free`), or fail alike, and draw the same random
numbers. The names on which the scopes differ must be bound in time, as for orderly trees;
random choices do not matter, since both scopes make the same.

Orderly trees make no random choices. That they are needed here for their names only is
expressed by the scope without random choices (`Scope.hushed`), which reads texts and binds
names as the scope itself does.
-/

namespace MathExpr

namespace Scope

variable {s s' s₁ s₂ : Scope} {names differing free : List String}

/-! ### The scope without random choices -/

theorem isEmpty_signatures_hushed (s : Scope) (name : String) :
    s.hushed.signatures name = [] ↔ s.signatures name = [] := by
  rw [signatures_hushed, List.map_eq_nil_iff]

theorem not_makesChoices_hushed (s : Scope) (name : String) : ¬s.hushed.MakesChoices name := by
  rintro ⟨f, hf, hrandom⟩
  unfold Signature.isRandom at hrandom
  split at hrandom
  · rename_i p hp
    rw [s.isQuiet_hushed name f hf p hp] at hrandom
    cases hrandom
  · cases hrandom

/-- Texts are read without regard to what functions do. -/
theorem tree_hushed (s : Scope) : s.hushed.tree = s.tree := by
  have hreads : s.hushed.readsAsProduct = s.readsAsProduct := by
    funext name
    unfold readsAsProduct
    rw [show s.hushed.binds name = s.binds name from rfl, Bool.eq_iff_iff, Bool.and_eq_true,
      Bool.and_eq_true, List.isEmpty_iff, List.isEmpty_iff, isEmpty_signatures_hushed]
  unfold tree
  rw [hreads]

/-! ### Scopes that share their functions -/

/-- Two scopes have the same functions, which are built in. -/
structure ShareBuiltIns (s₁ s₂ : Scope) : Prop where
  signatures : ∀ name, s₁.signatures name = s₂.signatures name
  eachSignature : s₁.EachSignature fun key f => f ∈ Library.signatures ∧ key = Text.lower f.name

namespace ShareBuiltIns

theorem symm (h : s₁.ShareBuiltIns s₂) : s₂.ShareBuiltIns s₁ where
  signatures name := (h.signatures name).symm
  eachSignature name f hf := h.eachSignature name f (by rwa [h.signatures])

/-- Scopes that share their functions and in which the same names have values, but for some. -/
theorem extends_hushed (h : s₁.ShareBuiltIns s₂)
    (hbinds : ∀ n, Text.lower n ∉ names → s₂.binds n = s₁.binds n) : s₁.hushed.Extends names s₂ where
  isRegular := Library.isRegular_of_eachSignature h.symm.eachSignature
  noCustom name f hf := Library.body_ne_custom (h.symm.eachSignature name f hf).1
  isEmpty name := by rw [isEmpty_signatures_hushed, h.signatures]
  binds := hbinds

/-- Scopes agree on all names but those on which they differ. -/
theorem agree (h : s₁.ShareBuiltIns s₂)
    (hdiffering : ∀ n, s₁.value? n ≠ s₂.value? n → Text.lower n ∈ differing) :
    s₁.hushed.Agree differing [] (fun n => n ∈ differing ∧ s₁.value? n ≠ s₂.value? n) s₁ s₂ where
  left := by
    have hself : s₁.ShareBuiltIns s₁ := ⟨fun _ => rfl, h.eachSignature⟩
    exact hself.extends_hushed fun _ _ => rfl
  right := h.extends_hushed fun n hn => by
    have hvalue : s₁.value? n = s₂.value? n := not_not.1 fun hne => hn (hdiffering n hne)
    unfold binds
    rw [hvalue]
  signatures name _ := h.signatures name
  value n hn := by
    by_contra hne
    refine hn ⟨hdiffering n hne, ?_⟩
    rwa [value?_lower, value?_lower]
  defined_of_disputed _ hn := hn.1

end ShareBuiltIns

/-! ### Evaluation -/

/-- **Only free names count.** A tree is evaluated alike in two scopes with the same built-in functions
that agree on its free names, if the names on which they differ are bound in time. Both scopes find the
same free names. -/
theorem eval_eq_of_agree_on_free (h : s₁.ShareBuiltIns s₂)
    (hdiffering : ∀ n, s₁.value? n ≠ s₂.value? n → Text.lower n ∈ differing) {t : Tree}
    (ht : t.IsOrderly s₁.hushed differing []) (hfree : FreeNames.ofTree s₁.tree [] t = .ok free)
    (hvalues : ∀ n ∈ free, s₁.value? n = s₂.value? n) :
    FreeNames.ofTree s₂.tree [] t = .ok free ∧ s₁.eval t = s₂.eval t := by
  have hagree := h.agree hdiffering
  rw [← tree_hushed] at hfree
  refine ⟨(FreeNames.ofTree_congr hagree.right ht []).trans hfree, hagree.eval_eq ⟨ht, ?_⟩⟩
  rintro n hn ⟨-, hne⟩
  exact hne (hvalues n ((FreeNames.mem_iff_freeIn s₁.hushed.readsShorter_tree hfree).2 hn))

/-- A loop that binds a name on which the scopes differ, over a list with a random choice. -/
theorem eval_eq_of_agree_on_free_loop :
    let t : Tree := .node (.call "map") [.leaf (.name "y" []), .leaf (.name "y" []),
      .node .list [.node (.call "random") [.leaf (.name "a" [])]]]
    let s₂ := Library.scope.bind "a" (.list [.boolean true, .boolean false])
    let s₁ := s₂.bind "y" (.boolean true)
    FreeNames.ofTree s₂.tree [] t = .ok ["a"] ∧ s₁.eval t = s₂.eval t := by
  have hscope := holdsBuiltIns_scope
  generalize Library.scope = s at hscope ⊢
  intro t s₂ s₁
  have hbuiltIns : s₁.ShareBuiltIns s₂ := ⟨fun _ => rfl, (hscope.eachSignature.bind _ _).bind _ _⟩
  have hvalue (n : String) (hn : Text.lower n ≠ "y") : s₁.value? n = s₂.value? n := by
    rw [value?_bind, if_neg]
    rwa [show Text.lower "y" = "y" by decide +kernel]
  have hdiffering : ∀ n, s₁.value? n ≠ s₂.value? n → Text.lower n ∈ ["y"] :=
    fun n hn => List.mem_singleton.2 (not_not.1 fun hne => hn (hvalue n hne))
  have hchoices (name : String) := s₁.not_makesChoices_hushed name
  have hleaf {around : List String} {n : String} :
      (Tree.leaf (.name n [])).IsOrderly s₁.hushed ["y"] around :=
    .leaf fun _ _ h => by cases h
  have horderly : t.IsOrderly s₁.hushed ["y"] [] := by
    refine .node (fun name _ => hchoices name) ⟨?_, ?_⟩ ?_
    · rintro _ _ _ - ⟨⟩ ⟨⟩
    · rintro _ _ _ _ hkey
      exact absurd hkey (by decide +kernel)
    · rintro (_ | _ | _ | i) u ⟨⟩
      · exact hleaf
      · exact hleaf
      · refine .node (fun name _ => hchoices name) ⟨?_, ?_⟩ ?_
        · rintro _ _ _ ⟨⟩
        · rintro _ _ _ _ ⟨⟩
        · rintro (_ | j) w ⟨⟩
          refine .node (fun name _ => hchoices name) ⟨?_, ?_⟩ ?_
          · rintro _ _ _ hkey
            exact absurd hkey (by decide +kernel)
          · rintro _ _ _ _ hkey
            exact absurd hkey (by decide +kernel)
          · rintro (_ | k) x ⟨⟩
            exact hleaf
  refine eval_eq_of_agree_on_free hbuiltIns hdiffering horderly rfl fun n hn => ?_
  rw [List.mem_singleton.1 hn]
  exact hvalue "a" (by decide +kernel)

end Scope

/-! ### Names that are bound late -/

namespace Tree

/-- A tree has the same value, or none, in any two scopes that share their functions and agree on the
names that are found free in it in either. -/
def DependsOnFree (t : Tree) : Prop :=
  ∀ s₁ s₂ : Scope, s₁.ShareBuiltIns s₂ → ∀ free₁ free₂,
    FreeNames.ofTree s₁.tree [] t = .ok free₁ → FreeNames.ofTree s₂.tree [] t = .ok free₂ →
      (∀ n ∈ free₁ ++ free₂, s₁.value? n = s₂.value? n) → ∀ draws,
        ((s₁.eval t).runFrom draws).1.toOption = ((s₂.eval t).runFrom draws).1.toOption

/-- Whether a tree has a value in a scope. -/
def hasValue (s : Scope) (t : Tree) : Bool :=
  ((s.eval t).runFrom .default).1.toOption.isSome

/-- A name that is not among the free names of a tree counts: the tree has no value in the scope, and has
one if the name is true. -/
def NeedsBesides (s : Scope) (n : String) (free : List String) (t : Tree) : Prop :=
  (FreeNames.ofTree s.tree [] t).toOption = some free ∧
    (FreeNames.ofTree (s.bind n (.boolean true)).tree [] t).toOption = some free ∧
      (∀ m ∈ free, Text.lower m ≠ Text.lower n) ∧
        ((s.eval t).runFrom .default).1.toOption.isSome = false ∧
          (((s.bind n (.boolean true)).eval t).runFrom .default).1.toOption.isSome = true

instance (s : Scope) (n : String) (free : List String) (t : Tree) :
    Decidable (NeedsBesides s n free t) :=
  inferInstanceAs (Decidable (_ ∧ _ ∧ _ ∧ _ ∧ _))

theorem not_dependsOnFree_of_needsBesides {s : Scope} (hs : s.HoldsBuiltIns) {t : Tree} (n : String)
    (free : List String) (h : NeedsBesides s n free t) : ¬t.DependsOnFree := by
  obtain ⟨hfree, hfree', hn, hnone, hsome⟩ := h
  intro hdepends
  have hok {x : Outcome (List String)} (hx : x.toOption = some free) : x = .ok free := by
    cases x with
    | error e => cases hx
    | ok names =>
        cases hx
        rfl
  have hshare : s.ShareBuiltIns (s.bind n (.boolean true)) := ⟨fun _ => rfl, hs.eachSignature⟩
  have hagree : ∀ m ∈ free ++ free, s.value? m = (s.bind n (.boolean true)).value? m := by
    intro m hm
    rw [Scope.value?_bind, if_neg (hn m (by simpa using hm))]
  rw [hdepends _ _ hshare free free (hok hfree) (hok hfree') hagree .default, hsome] at hnone
  cases hnone

/-- Free names are not all that counts: a list that is taken apart may have too few parts, a definition in
`satisfy` may use a name that is bound after it, and in the slot of a text a name may be applied that the
slot binds itself or that is bound around the text. -/
theorem not_dependsOnFree :
    (¬DependsOnFree (.node (.call "map") [.leaf (.name "b" []),
      .node .list [.leaf (.name "a" []), .leaf (.name "b" [])],
      .node .list [.node .list [.leaf (.boolean true)]]])) ∧
    (¬DependsOnFree (.node (.call "satisfy") [.node .list [.leaf (.name "x" []), .leaf (.name "y" [])],
      .node .list [.leaf (.name "y" []), .leaf (.boolean true)], .node .list [.leaf (.boolean true)]])) ∧
    (¬DependsOnFree (.leaf (.plainText "\x7bmap(if(g(b) isa 'op',true,c),g,[true])\x7d"))) ∧
    ¬DependsOnFree (.node (.call "map") [.leaf (.plainText "\x7bsatisfy([a,g(f())],[],[a])\x7d"),
      .leaf (.name "f" []), .node .list [.leaf (.boolean true)]]) := by
  have hof {t : Tree} := not_dependsOnFree_of_needsBesides Scope.holdsBuiltIns_scope (t := t)
  refine .imp (hof "b" []) (.imp (hof "y" []) (.imp (hof "g" ["b", "c"]) (hof "a" []))) ?_
  rw [Library.scope_eq]
  decide +kernel

end Tree

end MathExpr
