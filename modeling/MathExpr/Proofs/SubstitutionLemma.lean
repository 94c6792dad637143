import MathExpr.Proofs.BuiltIn
import MathExpr.Proofs.FreeNames
import Mathlib.Data.List.Forall2

/-!
# The substitution lemma

Evaluating a tree in which the names of a scope have been replaced by their values has
the same outcome as evaluating the tree itself (`Scope.sameOutcome_eval_substitute`).

Under the constructs that bind names, the two sides part: the lookup by which names are
replaced gets smaller, while the scope in which both sides are evaluated gets other
values for the names that are bound. So the lemma is proved for a lookup and a scope of
their own, where the scope *supports* the lookup: it gives each name the value that the
lookup gives it. Each construct is one lemma about arguments of which one is the other
with names replaced (`Suspended.Replaced`); the lemmas meet in the induction over the
tree (`Evaluate.replaced`).
-/

namespace MathExpr

open MathExpr.Action (SameOutcome)

/-! ### Scopes that support a lookup -/

namespace Scope

/-- The scope gives the names of a lookup the same values, and its constructs stand under
their own names. -/
structure Supports (s : Scope) (σ : Lookup) : Prop where
  isRegular : s.IsRegular
  value : ∀ n v, σ (Text.lower n) = some v → s.value? n = some v

namespace Supports

variable {s s' : Scope} {σ : Lookup}

theorem hide (h : s.Supports σ) (names : List String) : s.Supports (σ.hide names) where
  isRegular := h.isRegular
  value n v hn := h.value n v (Lookup.hide_eq_some hn).2

/-- A scope that differs in the values of some names supports the lookup from which these
are hidden. -/
theorem of_agree (h : s.Supports σ) {names : List String} (hregular : s'.IsRegular)
    (hvalue : ∀ n, Text.lower n ∉ names → s'.value? n = s.value? n) :
    s'.Supports (σ.hide names) where
  isRegular := hregular
  value n v hn := by
    obtain ⟨hmem, hv⟩ := Lookup.hide_eq_some hn
    rw [hvalue n hmem]
    exact h.value n v hv

/-- A name of the lookup is bound. -/
theorem binds (h : s.Supports σ) {n : String} {v : Value} (hn : σ (Text.lower n) = some v) :
    s.binds n = true := by
  unfold Scope.binds
  rw [h.value n v hn]
  rfl

/-- A hidden name may be bound to any value. -/
theorem bind {names : List String} (h : s.Supports (σ.hide names)) {name : String}
    (hname : Text.lower name ∈ names) (v : Value) : (s.bind name v).Supports (σ.hide names) where
  isRegular := h.isRegular.bind name v
  value n w hn := by
    have hne : Text.lower n ≠ Text.lower name := by
      intro heq
      rw [heq, Lookup.hide_of_mem hname] at hn
      cases hn
    rw [Scope.value?_bind, if_neg hne]
    exact h.value n w hn

end Supports

end Scope

/-! ### Arguments of constructs -/

/-- Evaluation in a scope that supports the lookup has the same outcome. -/
def SameUnder (σ : Lookup) (f g : Scope → Action Value) : Prop :=
  ∀ s : Scope, s.Supports σ → SameOutcome (f s) (g s)

/-- An argument of a construct is another one in which names have been replaced. -/
structure Suspended.Replaced (σ : Lookup) (a b : Suspended) : Prop where
  tree : a.tree = b.tree.replace σ
  value : SameUnder σ a.value b.value
  parts : List.Forall₂ (SameUnder σ) a.parts b.parts

namespace Construct

variable {σ : Lookup} {s : Scope}

theorem sameOutcome_evalConditional (hs : s.Supports σ) {a₁ a₂ b₁ b₂ c₁ c₂ : Suspended}
    (ha : a₁.Replaced σ a₂) (hb : b₁.Replaced σ b₂) (hc : c₁.Replaced σ c₂) :
    SameOutcome (evalConditional s a₁ b₁ c₁) (evalConditional s a₂ b₂ c₂) := by
  refine (ha.value s hs).bind fun v => ?_
  cases v with
  | boolean b =>
      cases b with
      | true => exact hb.value s hs
      | false => exact hc.value s hs
  | _ => exact SameOutcome.refl _

theorem sameOutcome_evalCases (hs : s.Supports σ) :
    {as bs : List Suspended} → List.Forall₂ (Suspended.Replaced σ) as bs →
      SameOutcome (evalCases s as) (evalCases s bs)
  | _, _, .nil => SameOutcome.refl _
  | _, _, .cons h .nil => h.value s hs
  | _, _, .cons hcondition (.cons hitem hrest) => by
      refine (hcondition.value s hs).bind fun v => ?_
      cases v with
      | boolean b =>
          cases b with
          | true => exact hitem.value s hs
          | false => exact sameOutcome_evalCases hs hrest
      | _ => exact SameOutcome.refl _

theorem sameOutcome_evalRepetition (hs : s.Supports σ) {a₁ a₂ b₁ b₂ : Suspended}
    (ha : a₁.Replaced σ a₂) (hb : b₁.Replaced σ b₂) :
    SameOutcome (evalRepetition s a₁ b₁) (evalRepetition s a₂ b₂) := by
  refine (hb.value s hs).bind fun v => ?_
  cases v with
  | number n =>
      refine (SameOutcome.refl _).bind fun count => ?_
      refine (SameOutcome.mapM fun _ _ => ha.value s hs).bind fun vs => ?_
      exact SameOutcome.refl _
  | _ => exact SameOutcome.refl _

/-! #### Loops -/

theorem mapM_name?_replace {items : List Tree}
    (h : ∀ u ∈ items, (u.replace σ).name? = u.name?) :
    (items.map (Tree.replace σ)).mapM Tree.name? = items.mapM Tree.name? := by
  induction items with
  | nil => rfl
  | cons u rest ih =>
      rw [List.map_cons, List.mapM_cons, List.mapM_cons, h u List.mem_cons_self,
        ih fun w hw => h w (List.mem_cons_of_mem u hw)]

/-- The names that a tree gives to a loop stay where they are hidden. -/
theorem loopNames?_replace {t : Tree} (hbound : ∀ k ∈ t.boundKeys, σ k = none) :
    loopNames? (t.replace σ) = loopNames? t := by
  unfold Tree.boundKeys at hbound
  have hname : (t.replace σ).name? = t.name? := by
    refine Tree.name?_replace fun k hk => hbound k ?_
    rw [hk]
    exact List.mem_cons_self
  unfold loopNames?
  rw [hname, Tree.elements?_replace]
  cases hn : t.name? with
  | some name => rfl
  | none =>
      cases helements : t.elements? with
      | none => rfl
      | some items =>
          have hkey : t.key? = none := by
            unfold Tree.key?
            rw [hn]
            rfl
          rw [hkey, helements] at hbound
          refine congrArg (Option.map LoopNames.several) (mapM_name?_replace fun u hu => ?_)
          exact Tree.name?_replace fun k hk => hbound k (List.mem_filterMap.2 ⟨u, hu, hk⟩)

theorem mem_of_mapM_name? {items : List Tree} {names : List String}
    (h : items.mapM Tree.name? = some names) {n : String} (hn : n ∈ names) :
    Text.lower n ∈ items.filterMap Tree.key? := by
  obtain ⟨u, hu, hname⟩ := exists_mem_of_mapM_eq_some h hn
  refine List.mem_filterMap.2 ⟨u, hu, ?_⟩
  unfold Tree.key?
  rw [hname]
  rfl

/-- A loop only binds names that the tree gives to it. -/
theorem value?_loopScope {t : Tree} {names : LoopNames} (h : loopNames? t = some names)
    (v : Value) (n : String) (hn : Text.lower n ∉ t.boundKeys) :
    (loopScope s v names).value? n = s.value? n := by
  unfold loopNames? at h
  unfold Tree.boundKeys at hn
  cases hname : t.name? with
  | some name =>
      rw [hname] at h
      have hkey : t.key? = some (Text.lower name) := by
        unfold Tree.key?
        rw [hname]
        rfl
      rw [hkey] at hn
      cases h
      show (s.child.bind name v).value? n = _
      rw [Scope.value?_bind, if_neg fun heq => hn (by rw [heq]; exact List.mem_cons_self)]
      rfl
  | none =>
      have hkey : t.key? = none := by
        unfold Tree.key?
        rw [hname]
        rfl
      rw [hname] at h
      rw [hkey] at hn
      cases helements : t.elements? with
      | none =>
          rw [helements] at h
          cases h
      | some items =>
          rw [helements] at h hn
          obtain ⟨ns, hns, rfl⟩ := Option.map_eq_some_iff.1 h
          refine Scope.value?_bindAll s.child _ n fun b hb heq => hn ?_
          rw [heq]
          exact mem_of_mapM_name? hns (List.of_mem_zip hb).1

theorem sameOutcome_evalMap (hs : s.Supports σ) {a₁ a₂ b₁ b₂ c₁ c₂ : Suspended}
    (ha : a₁.Replaced (σ.hide b₂.tree.boundKeys) a₂)
    (hb : b₁.Replaced (σ.hide b₂.tree.boundKeys) b₂) (hc : c₁.Replaced σ c₂) :
    SameOutcome (evalMap s a₁ b₁ c₁) (evalMap s a₂ b₂ c₂) := by
  refine (hc.value s hs).bind fun v => ?_
  refine (SameOutcome.refl (elements v)).bind fun items => ?_
  rw [hb.tree, loopNames?_replace fun k hk => Lookup.hide_of_mem hk σ]
  cases hnames : loopNames? b₂.tree with
  | none => exact SameOutcome.refl _
  | some names =>
      refine (SameOutcome.mapM fun v _ => ?_).bind fun vs => SameOutcome.refl _
      refine ha.value _ (hs.of_agree (hs.isRegular.loopScope v names) ?_)
      exact value?_loopScope hnames v

/-! #### Questions about kinds -/

theorem all_eq_isEmpty_filter (p : String → Bool) (names : List String) :
    names.all p = (names.filter fun k => !p k).isEmpty := by
  induction names with
  | nil => rfl
  | cons k rest ih =>
      rw [List.all_cons, ih, List.filter_cons]
      cases p k <;> rfl

/-- The question is decided by the free names, unless the tree is a name without a value. -/
theorem kindOfUnbound_eq {kind : String} {t : Tree}
    (h : ∀ n, t.name? = some n → s.binds n = true) :
    kindOfUnbound s kind t =
      (FreeNames.ofTree s.tree [] t).map fun free =>
        if free.all s.binds then none else some (t.kind == kind) := by
  have hbind (x : Outcome (List String)) (f : List String → Option Bool) :
      (do let free ← x; return f free) = x.map f := by cases x <;> rfl
  unfold kindOfUnbound
  cases hname : t.name? with
  | none => exact hbind _ _
  | some n =>
      simp only [h n hname]
      exact hbind _ _

/-- Free names that are the same up to those with a value decide the same. -/
theorem map_all_eq_of_sameUpTo {x y : Outcome (List String)} {a b : Option Bool}
    (h : FreeNames.SameUpTo (fun k => !s.binds k) x y) :
    x.map (fun free => if free.all s.binds then a else b) =
      y.map fun free => if free.all s.binds then a else b := by
  have hmap (z : Outcome (List String)) :
      z.map (fun free => if free.all s.binds then a else b) =
        (z.map (List.filter fun k => !s.binds k)).map fun free => if free.isEmpty then a else b := by
    cases z with
    | error e => rfl
    | ok names =>
        show Except.ok (if names.all s.binds then a else b) = _
        rw [all_eq_isEmpty_filter]
        rfl
  rw [hmap x, hmap y, h]

/-- What is decided about the kind of a tree without its value does not change when names
that have a value are replaced by it. -/
theorem kindOfUnbound_replace (hσ : σ.IsInert) (hs : s.Supports σ) (kind : String) (t : Tree) :
    kindOfUnbound s kind (t.replace σ) = kindOfUnbound s kind t := by
  have hfree := FreeNames.ofTree_replace s.tree [] hσ (p := fun k => !s.binds k)
    (fun n v hn => by rw [Scope.binds_lower, hs.binds hn]; rfl) t
  cases t with
  | node h args =>
      rw [kindOfUnbound_eq (by rintro n ⟨⟩), kindOfUnbound_eq (by rintro n ⟨⟩)]
      exact map_all_eq_of_sameUpTo hfree
  | leaf v =>
      cases v with
      | name n hints =>
          rw [Tree.replace] at hfree ⊢
          cases hn : σ (Text.lower n) with
          | none => rfl
          | some v =>
              rw [hn] at hfree
              have hv : (Tree.leaf v).name? = none := Value.name?_of_isInert (hσ n v hn)
              have hbinds := hs.binds hn
              have hleaf : FreeNames.ofTree s.tree [] (.leaf v) = .ok [] :=
                FreeNames.ofTree_leaf_inert (hσ n v hn) s.tree []
              have hname : FreeNames.ofTree s.tree [] (.leaf (.name n hints)) =
                  .ok [Text.lower n] := rfl
              show kindOfUnbound s kind (.leaf v) = _
              rw [kindOfUnbound_eq (by rw [hv]; rintro m ⟨⟩),
                kindOfUnbound_eq (by rintro m ⟨⟩; exact hbinds), hleaf, hname]
              show Except.ok none = Except.ok (if _ then none else _)
              rw [List.all_cons, Scope.binds_lower, hbinds]
              rfl
      | _ => rfl

theorem sameOutcome_evalIsa (hσ : σ.IsInert) (hs : s.Supports σ) {a₁ a₂ b₁ b₂ : Suspended}
    (ha : a₁.Replaced σ a₂) (hb : b₁.Replaced σ b₂) :
    SameOutcome (evalIsa s a₁ b₁) (evalIsa s a₂ b₂) := by
  refine (hb.value s hs).bind fun v => ?_
  cases v with
  | text kind safe latex =>
      have hkind := kindOfUnbound_replace hσ hs kind a₂.tree
      rw [← ha.tree] at hkind
      refine (SameOutcome.of_eq (congrArg Action.ofOutcome hkind)).bind fun decided => ?_
      cases decided with
      | some b => exact SameOutcome.refl _
      | none => exact (ha.value s hs).bind fun v => SameOutcome.refl _
  | _ => exact SameOutcome.refl _

/-! #### Attempts -/

theorem sameOutcome_attempts {α : Type} {x y : Action (Option α)} (h : SameOutcome x y) :
    (n : Nat) → SameOutcome (attempts x n) (attempts y n)
  | 0 => SameOutcome.refl _
  | n + 1 => by
      refine h.bind fun a => ?_
      cases a with
      | some a => exact SameOutcome.refl _
      | none => exact sameOutcome_attempts h n

theorem returns_define {names : List String} {pairs : List (String × (Scope → Action Value))}
    (hs : s.Supports (σ.hide names)) (hpairs : ∀ p ∈ pairs, Text.lower p.1 ∈ names) :
    (define s pairs).Returns fun s' => s'.Supports (σ.hide names) := by
  induction pairs generalizing s with
  | nil => exact Action.returns_pure hs
  | cons p rest ih =>
      refine Action.returns_bind (Action.returns_true _) fun v _ => ?_
      exact ih (hs.bind (hpairs p List.mem_cons_self) v)
        fun q hq => hpairs q (List.mem_cons_of_mem p hq)

theorem sameOutcome_define {names keys : List String} (hs : s.Supports (σ.hide names))
    (hkeys : ∀ k ∈ keys, Text.lower k ∈ names) {fs gs : List (Scope → Action Value)}
    (h : List.Forall₂ (SameUnder (σ.hide names)) fs gs) :
    SameOutcome (define s (keys.zip fs)) (define s (keys.zip gs)) := by
  induction h generalizing s keys with
  | nil =>
      rw [List.zip_nil_right]
      exact SameOutcome.refl _
  | cons hfg hrest ih =>
      cases keys with
      | nil => exact SameOutcome.refl _
      | cons k keys =>
          refine (hfg s hs).bind fun v => ?_
          exact ih (hs.bind (hkeys k List.mem_cons_self) v)
            fun k' hk' => hkeys k' (List.mem_cons_of_mem k hk')

theorem sameOutcome_meets (hs : s.Supports σ) {fs gs : List (Scope → Action Value)}
    (h : List.Forall₂ (SameUnder σ) fs gs) : SameOutcome (meets s fs) (meets s gs) := by
  induction h with
  | nil => exact SameOutcome.refl _
  | cons hfg hrest ih =>
      refine (hfg s hs).bind fun v => ?_
      cases v with
      | boolean b =>
          cases b with
          | true => exact ih
          | false => exact SameOutcome.refl _
      | _ => exact SameOutcome.refl _

/-- One attempt to define the names so that the requirements are met. -/
def attemptOnce (s : Scope) (keys : List String)
    (definitions requirements : List (Scope → Action Value)) : Action (Option Value) := do
  let inner ← define s.child (keys.zip definitions)
  if ← meets inner requirements then return some (.list (keys.filterMap inner.value?))
  else return none

theorem sameOutcome_attemptOnce (hs : s.Supports σ) {keys : List String}
    (hkeys : keys.map Text.lower = keys) {ds₁ ds₂ rs₁ rs₂ : List (Scope → Action Value)}
    (hd : List.Forall₂ (SameUnder (σ.hide keys)) ds₁ ds₂)
    (hr : List.Forall₂ (SameUnder (σ.hide keys)) rs₁ rs₂) :
    SameOutcome (attemptOnce s keys ds₁ rs₁) (attemptOnce s keys ds₂ rs₂) := by
  have hchild : s.child.Supports (σ.hide keys) :=
    hs.of_agree hs.isRegular.child fun n _ => rfl
  have hmem : ∀ k ∈ keys, Text.lower k ∈ keys := by
    intro k hk
    have hlower := List.mem_map_of_mem (f := Text.lower) hk
    rw [hkeys] at hlower
    exact hlower
  refine (sameOutcome_define hchild hmem hd).bind_of_returns
    (returns_define hchild fun p hp => hmem p.1 (List.of_mem_zip hp).1) fun inner hinner => ?_
  exact (sameOutcome_meets hinner hr).bind fun met => SameOutcome.refl _

/-- What `satisfy` does with its arguments once all of them are list literals. -/
def attemptAll (s : Scope) (keys : List String) (definitions requirements : List (Scope → Action Value))
    (count : Action Int) : Action Value :=
  if keys.length ≠ definitions.length then Action.fail .definitionCount
  else do
    match ← attempts (attemptOnce s keys definitions requirements) (← count).toNat with
    | some v => return v
    | none => Action.fail .tooManyAttempts

/-- The error for an argument that is no list literal does not depend on which it is. -/
theorem sameOutcome_evalSatisfy (hσ : σ.IsInert) (hs : s.Supports σ)
    {a₁ a₂ b₁ b₂ c₁ c₂ : Suspended} {x y : Action Int}
    (ha : a₁.Replaced (σ.hide a₂.tree.boundKeys) a₂)
    (hb : b₁.Replaced (σ.hide a₂.tree.boundKeys) b₂)
    (hc : c₁.Replaced (σ.hide a₂.tree.boundKeys) c₂) (hcount : SameOutcome x y) :
    SameOutcome (evalSatisfy s a₁ b₁ c₁ x) (evalSatisfy s a₂ b₂ c₂ y) := by
  have hlist {a b : Suspended} {τ : Lookup} (h : a.Replaced τ b) :
      a.tree.elements?.isNone = b.tree.elements?.isNone := by
    rw [h.tree, Tree.elements?_replace, Option.isNone_map]
  have hkeys : a₁.tree.boundKeys = a₂.tree.boundKeys := by
    rw [ha.tree]
    exact Tree.boundKeys_replace (hσ.hide _) fun k hk => Lookup.hide_of_mem hk σ
  unfold evalSatisfy
  simp only [List.find?_cons, hlist ha, hlist hb, hlist hc]
  cases a₂.tree.elements?.isNone with
  | true => exact SameOutcome.fail rfl
  | false =>
  cases b₂.tree.elements?.isNone with
  | true => exact SameOutcome.fail rfl
  | false =>
  cases c₂.tree.elements?.isNone with
  | true => exact SameOutcome.fail rfl
  | false =>
      show SameOutcome (attemptAll s a₁.tree.boundKeys b₁.parts c₁.parts x)
        (attemptAll s a₂.tree.boundKeys b₂.parts c₂.parts y)
      unfold attemptAll
      rw [hkeys, hb.parts.length_eq]
      split
      · exact SameOutcome.refl _
      · refine hcount.bind fun n => ?_
        refine (sameOutcome_attempts ?_ n.toNat).bind fun v => SameOutcome.refl _
        exact sameOutcome_attemptOnce hs (Tree.map_lower_boundKeys _) hb.parts hc.parts

/-! #### Any construct -/

variable {deeper : Evaluator}

/-- A node that is no construct that binds names has its names replaced in all arguments. -/
theorem replaceAll_of_key {h : Head} {key : String} (hkey : h.key? = some key)
    (hmap : key ≠ "map") (hsatisfy : key ≠ "satisfy") (args : List Tree) :
    Tree.replaceAll (σ.hide (Tree.binding h args).1) σ (Tree.binding h args).2 args =
      args.map (Tree.replace σ) := by
  have hnone : Tree.binding h args = ([], 0) := by
    rcases Tree.binding_cases h args with ⟨_, _, _, hk, -⟩ | ⟨_, _, _, hk, -⟩ | hnone
    · exact absurd (Option.some.inj (hkey.symm.trans hk)) hmap
    · exact absurd (Option.some.inj (hkey.symm.trans hk)) hsatisfy
    · exact hnone args rfl
  rw [hnone]
  exact Tree.replaceAll_zero _ σ args

/-- A construct has the same outcome for arguments in which names have been replaced. -/
theorem sameOutcome_eval (hσ : σ.IsInert) (hs : s.Supports σ) {c : Construct} {h : Head}
    (hkey : h.key? = some c.name) {args : List Tree}
    (hargs : ∀ t ∈ args, ∀ τ : Lookup, τ.IsInert →
      (Evaluate.suspended deeper (t.replace τ)).Replaced τ (Evaluate.suspended deeper t)) :
    SameOutcome
      (c.eval s ((Tree.replaceAll (σ.hide (Tree.binding h args).1) σ (Tree.binding h args).2
        args).map (Evaluate.suspended deeper)))
      (c.eval s (args.map (Evaluate.suspended deeper))) := by
  cases c with
  | conditional =>
      rw [replaceAll_of_key hkey (by decide) (by decide)]
      rcases args with _ | ⟨t, _ | ⟨u, _ | ⟨w, _ | ⟨x, rest⟩⟩⟩⟩
      case cons.cons.cons.nil =>
        exact sameOutcome_evalConditional hs (hargs t (by simp) σ hσ) (hargs u (by simp) σ hσ)
          (hargs w (by simp) σ hσ)
      all_goals exact SameOutcome.fail rfl
  | cases =>
      rw [replaceAll_of_key hkey (by decide) (by decide), List.map_map]
      refine sameOutcome_evalCases hs (List.forall₂_map_left_iff.2 (List.forall₂_map_right_iff.2 ?_))
      exact List.forall₂_same.2 fun t ht => hargs t ht σ hσ
  | repetition =>
      rw [replaceAll_of_key hkey (by decide) (by decide)]
      rcases args with _ | ⟨t, _ | ⟨u, _ | ⟨w, rest⟩⟩⟩
      case cons.cons.nil =>
        exact sameOutcome_evalRepetition hs (hargs t (by simp) σ hσ) (hargs u (by simp) σ hσ)
      all_goals exact SameOutcome.fail rfl
  | isa =>
      rw [replaceAll_of_key hkey (by decide) (by decide)]
      rcases args with _ | ⟨t, _ | ⟨u, _ | ⟨w, rest⟩⟩⟩
      case cons.cons.nil =>
        exact sameOutcome_evalIsa hσ hs (hargs t (by simp) σ hσ) (hargs u (by simp) σ hσ)
      all_goals exact SameOutcome.fail rfl
  | map =>
      rcases args with _ | ⟨t, _ | ⟨u, _ | ⟨w, _ | ⟨x, rest⟩⟩⟩⟩
      case cons.cons.cons.nil =>
        simp only [Tree.binding, hkey, Construct.name, Tree.replaceAll]
        exact sameOutcome_evalMap hs (hargs t (by simp) _ (hσ.hide _))
          (hargs u (by simp) _ (hσ.hide _)) (hargs w (by simp) σ hσ)
      all_goals
        simp only [Tree.binding, hkey, Construct.name, Tree.replaceAll]
        exact SameOutcome.fail rfl
  | satisfy =>
      rcases args with _ | ⟨t, _ | ⟨u, _ | ⟨w, _ | ⟨x, _ | ⟨y, rest⟩⟩⟩⟩⟩
      case cons.cons.cons.nil =>
        simp only [Tree.binding, hkey, Construct.name, Tree.replaceAll]
        exact sameOutcome_evalSatisfy hσ hs (hargs t (by simp) _ (hσ.hide _))
          (hargs u (by simp) _ (hσ.hide _)) (hargs w (by simp) _ (hσ.hide _))
          (SameOutcome.refl _)
      case cons.cons.cons.cons.nil =>
        simp only [Tree.binding, hkey, Construct.name, Tree.replaceAll]
        refine sameOutcome_evalSatisfy hσ hs (hargs t (by simp) _ (hσ.hide _))
          (hargs u (by simp) _ (hσ.hide _)) (hargs w (by simp) _ (hσ.hide _)) ?_
        exact ((hargs x (by simp) σ hσ).value s hs).bind fun v => SameOutcome.refl _
      all_goals
        simp only [Tree.binding, hkey, Construct.name, Tree.replaceAll]
        exact SameOutcome.fail rfl

end Construct

/-! ### Any tree -/

namespace Evaluate

variable (deeper : Evaluator) {σ : Lookup}

/-- Two trees have the same outcome in every scope that supports a lookup. -/
def Agree (σ : Lookup) (u t : Tree) : Prop :=
  ∀ s : Scope, s.Supports σ → ∀ allowUnbound,
    SameOutcome (tree deeper s allowUnbound u) (tree deeper s allowUnbound t)

/-- What replacing names by values does not change about a tree: its value, and those of
its arguments. -/
structure Replaced (t : Tree) : Prop where
  value : ∀ σ : Lookup, σ.IsInert → Agree deeper σ (t.replace σ) t
  parts : ∀ σ : Lookup, σ.IsInert →
    List.Forall₂ (SameUnder σ) (parts deeper (t.replace σ)) (parts deeper t)

theorem unescapeBraceChars_of_no_brace {cs : List Char} (h : cs.any Text.isBrace = false) :
    Text.unescapeBraceChars cs = cs := by
  induction cs with
  | nil => rfl
  | cons c rest ih =>
      rw [List.any_cons, Bool.or_eq_false_iff] at h
      have hhead := FreeNames.head?_any_of_any h.2
      rw [Text.unescapeBraceChars, if_neg (by rw [hhead]; exact fun hh => Bool.false_ne_true hh.2),
        ih h.2]

/-- The value of an inert value is the value itself. -/
theorem tree_leaf_inert {v : Value} (hv : v.isInert = true) (s : Scope) (allowUnbound : Bool) :
    tree deeper s allowUnbound (.leaf v) = return v := by
  cases v with
  | name => cases hv
  | text content safe latex =>
      have hbrace : content.toList.any Text.isBrace = false := (Bool.not_eq_true' _).mp hv
      have hopen : content.toList.contains '\x7b' = false := by
        rw [← Bool.not_eq_true, List.contains_iff_mem]
        intro hmem
        exact absurd (List.any_eq_false.1 hbrace _ hmem) (by decide)
      unfold tree text
      rw [hopen, Bool.and_false, if_neg Bool.false_ne_true]
      show (pure (Value.text (Text.unescapeBraces content) safe latex) : Action Value) = _
      rw [Text.unescapeBraces, unescapeBraceChars_of_no_brace hbrace, String.ofList_toList]
  | _ => rfl

theorem replaced_leaf (v : Value) : Replaced deeper (.leaf v) where
  value σ hσ s hs allowUnbound := by
    cases v with
    | name n hints =>
        rw [Tree.replace]
        cases hn : σ (Text.lower n) with
        | none => exact SameOutcome.refl _
        | some v =>
            show SameOutcome (tree deeper s allowUnbound (.leaf v)) _
            rw [tree_leaf_inert deeper (hσ n v hn)]
            unfold tree
            rw [hs.value n v hn]
            exact SameOutcome.refl _
    | _ => exact SameOutcome.refl _
  parts σ hσ := by
    cases v with
    | name n hints =>
        rw [Tree.replace]
        cases σ (Text.lower n) <;> exact .nil
    | _ => exact .nil

/-- The arguments of a node in which names have been replaced have the same outcomes: in
some of them the names that the node binds have been left. -/
theorem forall₂_replaceAll {ts : List Tree} (h : ∀ t ∈ ts, Replaced deeper t) (hσ : σ.IsInert)
    (names : List String) (count : Nat) :
    List.Forall₂ (Agree deeper σ) (Tree.replaceAll (σ.hide names) σ count ts) ts := by
  induction ts generalizing count with
  | nil => cases count <;> exact .nil
  | cons t ts ih =>
      have ih := ih fun u hu => h u (List.mem_cons_of_mem t hu)
      have ht := h t List.mem_cons_self
      cases count with
      | zero => exact .cons (ht.value σ hσ) (ih 0)
      | succ count =>
          exact .cons (fun s hs => ht.value _ (hσ.hide names) s (hs.hide names)) (ih count)

theorem sameOutcome_trees {s : Scope} (hs : s.Supports σ) (allowUnbound : Bool)
    {us ts : List Tree} (h : List.Forall₂ (Agree deeper σ) us ts) :
    SameOutcome (trees deeper s allowUnbound us) (trees deeper s allowUnbound ts) := by
  induction h with
  | nil => exact SameOutcome.refl _
  | cons hut hrest ih =>
      exact (hut s hs allowUnbound).bind fun v => ih.bind fun vs => SameOutcome.refl _

/-- A tree in which names have been replaced, as an argument of a construct. -/
theorem Replaced.suspended {t : Tree} (h : Replaced deeper t) (τ : Lookup) (hτ : τ.IsInert) :
    (suspended deeper (t.replace τ)).Replaced τ (suspended deeper t) where
  tree := rfl
  value s hs := h.value τ hτ s hs false
  parts := h.parts τ hτ

/-- A node with the name of a construct stands for the construct, if the scope has it. -/
theorem key?_of_mem_signatures {s : Scope} (hs : s.IsRegular) {h : Head} {name : String}
    (hname : h.name? = some name) {f : Signature} (hf : f ∈ s.signatures name) {c : Construct}
    (hc : f.body = .construct c) : h.key? = some c.name := by
  unfold Head.key?
  rw [hname, ← hs name f hf c hc]
  rfl

theorem replaced_node (h : Head) {args : List Tree} (ih : ∀ t ∈ args, Replaced deeper t) :
    Replaced deeper (.node h args) where
  value σ hσ s hs allowUnbound := by
    have hargs := forall₂_replaceAll deeper ih hσ (Tree.binding h args).1 (Tree.binding h args).2
    have htrees := sameOutcome_trees deeper hs allowUnbound hargs
    rw [Tree.replace]
    unfold tree
    cases hname : h.name? with
    | none => exact htrees.bind fun vs => SameOutcome.refl _
    | some name =>
        cases hconstruct : h.key?.bind Construct.ofName? with
        | none => simpa only [hconstruct] using htrees.bind fun vs => SameOutcome.refl _
        | some c =>
            simp only
            cases hf : s.signatures name with
            | nil => exact SameOutcome.refl _
            | cons f fs =>
                simp only
                cases hbody : f.body with
                | construct c =>
                    have hmem : f ∈ s.signatures name := by rw [hf]; exact List.mem_cons_self
                    simp only [suspend_eq_map]
                    exact Construct.sameOutcome_eval hσ hs
                      (key?_of_mem_signatures hs.isRegular hname hmem hbody)
                      fun t ht τ hτ => (ih t ht).suspended deeper τ hτ
                | _ =>
                    simp only [Tree.length_replaceAll]
                    exact SameOutcome.refl _
  parts σ hσ := by
    rw [Tree.replace]
    unfold parts
    rw [values_eq_map, values_eq_map, List.forall₂_map_left_iff, List.forall₂_map_right_iff]
    refine (forall₂_replaceAll deeper ih hσ _ _).imp ?_
    exact fun u t hut s hs => hut s hs false

/-- Replacing names by values changes no value. -/
theorem replaced (t : Tree) : Replaced deeper t := by
  induction t using Tree.ind with
  | leaf v => exact replaced_leaf deeper v
  | node h args ih => exact replaced_node deeper h ih

end Evaluate

/-! ### The lemma -/

namespace Scope

/-- A scope all of whose variables are inert supports their lookup. -/
theorem supports_lookup {s : Scope} (h : s.IsRegular) : s.Supports s.lookup where
  isRegular := h
  value _ _ hn := hn

/-- **The substitution lemma.** Replacing the names of a scope by their values changes
nothing about what evaluation in the scope gives, or how it fails, whatever constructs
bind the names again. -/
theorem sameOutcome_eval_substitute (s : Scope) (hregular : s.IsRegular)
    (hinert : ∀ n v, s.value? n = some v → v.isInert = true) (t : Tree) :
    ∃ u, s.substitute true t = .ok u ∧ SameOutcome (s.eval u) (s.eval t) := by
  refine ⟨t.replace s.lookup, substitute_eq_replace s t, ?_⟩
  exact (Evaluate.replaced _ t).value s.lookup hinert s (supports_lookup hregular) false

/-- A loop that binds the name of a variable again: `map(x + y, x, [x, 2])`, where `x` is
five. -/
def shadowingLoop : Tree :=
  .node (.call "map") [
    .binary "+" (.leaf (.name "x" [])) (.leaf (.name "y" [])),
    .leaf (.name "x" []),
    .node .list [.leaf (.name "x" []), .leaf (.nat 2)]]

theorem sameOutcome_eval_shadowingLoop :
    ∃ u, (Library.scope.child.bind "x" (.nat 5)).substitute true shadowingLoop = .ok u ∧
      SameOutcome ((Library.scope.child.bind "x" (.nat 5)).eval u)
        ((Library.scope.child.bind "x" (.nat 5)).eval shadowingLoop) := by
  refine sameOutcome_eval_substitute _ (Library.isRegular_scope.child.bind "x" _) ?_ _
  intro n v hn
  rw [value?_bind, value?_child, Library.value?_scope] at hn
  split at hn
  · cases hn
    rfl
  · cases hn

end Scope

end MathExpr
