import MathExpr.Proofs.Hygiene
import MathExpr.Proofs.NamesApart

/-!
# Names in what a rule makes

A rule is only made if its pattern captures or contains each name of its result (`Rule.make`). Of several
alternatives one is enough: the rule that replaces `m_any(1, ?;x^0)` by `x` is made, and turns `1` into `x`, a
name that stands nowhere in the tree (`Rule.not_nameKeys_subset_of_make`).

A pattern *binds* a name if it captures or contains it whichever alternative matches (`Pattern.binds`). It
then captures it or finds it in the tree wherever it matches (`Pattern.binding_of_binds`), and nothing that is
captured has names of its own. So where the pattern of a rule binds all names of the result, all names in what
the rule makes are names of the tree that it applies to (`Rule.nameKeys_subset_of_apply`); and it does if
alternatives have the same names (`Rule.nameKeys_subset_of_make`).
-/

namespace MathExpr

namespace Tree

/-- The keys of the names in a tree. -/
def nameKeys (t : Tree) : List String := t.subtrees.filterMap key?

variable {P : Value → Prop} {key : String} {names : List String} {t : Tree}

theorem mem_nameKeys : key ∈ t.nameKeys ↔ ∃ s hints, leaf (.name s hints) ∈ t.subtrees ∧ Text.lower s = key := by
  rw [nameKeys, List.mem_filterMap]
  constructor
  · rintro ⟨u, hu, hkey⟩
    cases u with
    | node h args => cases hkey
    | leaf v =>
        cases v with
        | name s hints => exact ⟨s, hints, hu, Option.some.inj hkey⟩
        | _ => cases hkey
  · rintro ⟨s, hints, hu, rfl⟩
    exact ⟨_, hu, rfl⟩

theorem nameKeys_subset_iff : t.nameKeys ⊆ names ↔
    t.Leaves fun v => ∀ s hints, v = .name s hints → Text.lower s ∈ names := by
  constructor
  · rintro h v hv s hints rfl
    exact h (mem_nameKeys.2 ⟨s, hints, hv, rfl⟩)
  · intro h key hkey
    obtain ⟨s, hints, hv, rfl⟩ := mem_nameKeys.1 hkey
    exact h _ hv s hints rfl

theorem leaves_chain? (hP : ∀ v : Value, v.isNameless = true → P v) {symbol : String} {ts : List Tree}
    (hts : ∀ t ∈ ts, t.Leaves P) (h : chain? symbol ts = some t) : t.Leaves P := by
  cases ts with
  | nil =>
      simp only [chain?] at h
      split at h <;> cases h <;> exact leaves_leaf.2 (hP _ rfl)
  | cons u us =>
      obtain ⟨hu, hus⟩ := List.forall_mem_cons.1 hts
      cases h
      induction us generalizing u with
      | nil => exact hu
      | cons w us ih =>
          obtain ⟨hw, hus⟩ := List.forall_mem_cons.1 hus
          refine ih (binary symbol u w) (List.forall_mem_cons.2 ⟨?_, hus⟩) ?_ hus
          · exact leaves_node.2 (List.forall_mem_cons.2 ⟨hu, List.forall_mem_singleton.2 hw⟩)
          · exact leaves_node.2 (List.forall_mem_cons.2 ⟨hu, List.forall_mem_singleton.2 hw⟩)

/-- What values without names have, too, goes from the leaves of a tree to those of its parts and of chains. -/
theorem isInherited_leaves (hP : ∀ v : Value, v.isNameless = true → P v) : IsInherited (Leaves P) where
  args h := leaves_node.1 h
  chain := leaves_chain? hP

end Tree

/-! ### Names that a pattern binds -/

namespace Pattern

mutual

/-- Whether a pattern captures under a name or contains it, whichever alternative matches. -/
def binds (key : String) : Pattern → Bool
  | capture p k => k == key || binds key p
  | anyOf ps => (bindsEach key ps).all id
  | allOf ps | node _ ps => (bindsEach key ps).any id
  | commuting p => binds key p
  | literal (.name s _) => Text.lower s == key
  | _ => false

/-- Which patterns of a list bind a name. -/
def bindsEach (key : String) : List Pattern → List Bool
  | [] => []
  | p :: ps => binds key p :: bindsEach key ps

end

variable {commute : Bool} {key symbol : String} {p : Pattern} {ps qs : List Pattern} {t : Tree}
  {ts left : List Tree} {found found' : Captures}

theorem bindsEach_eq_map (key : String) (ps : List Pattern) : bindsEach key ps = ps.map (binds key) := by
  induction ps with
  | nil => rfl
  | cons p ps ih => rw [bindsEach, List.map_cons, ih]

theorem binds_anyOf : (anyOf ps).binds key = true ↔ ∀ p ∈ ps, p.binds key = true := by
  rw [binds, bindsEach_eq_map, List.all_map, List.all_eq_true]
  rfl

theorem binds_allOf : (allOf ps).binds key = true ↔ ∃ p ∈ ps, p.binds key = true := by
  rw [binds, bindsEach_eq_map, List.any_map, List.any_eq_true]
  rfl

theorem binds_node {h : Head} : (node h ps).binds key = true ↔ ∃ p ∈ ps, p.binds key = true := by
  rw [binds, bindsEach_eq_map, List.any_map, List.any_eq_true]
  rfl

theorem exists_binds_operandsOf (symbol : String) (hp : p.binds key = true) :
    ∃ q ∈ p.operandsOf symbol, q.binds key = true := by
  fun_induction operandsOf symbol p with
  | case1 o p q _ ihp ihq =>
      obtain ⟨r, hr, hbinds⟩ := binds_node.1 hp
      rcases List.mem_cons.1 hr with rfl | hr
      · obtain ⟨q', hq', hbinds⟩ := ihp hbinds
        exact ⟨q', List.mem_append_left _ hq', hbinds⟩
      · obtain rfl := List.mem_singleton.1 hr
        obtain ⟨q', hq', hbinds⟩ := ihq hbinds
        exact ⟨q', List.mem_append_right _ hq', hbinds⟩
  | case2 | case3 => exact ⟨_, List.mem_singleton_self _, hp⟩

/-- A name that one of some alternatives captures or contains is captured or contained by all of them. -/
def SharesName (key : String) : Pattern → Prop
  | anyOf ps => ∀ p ∈ ps, ∀ q ∈ ps, key ∈ p.captureNames ++ p.literalNames →
      key ∈ q.captureNames ++ q.literalNames
  | _ => True

instance (key : String) : (p : Pattern) → Decidable (p.SharesName key)
  | anyOf ps => inferInstanceAs (Decidable (∀ p ∈ ps, ∀ q ∈ ps, _ → _))
  | anything | anyMore | capture _ _ | ofKind _ | allOf _ | excluding _ | commuting _ | literal _ | node _ _ =>
    inferInstanceAs (Decidable True)

theorem mem_literalNamesOf : key ∈ literalNamesOf ps ↔ ∃ p ∈ ps, key ∈ p.literalNames := by
  induction ps with
  | nil => simp [literalNamesOf]
  | cons p ps ih => simp [literalNamesOf, ih]

theorem exists_mem_names (h : key ∈ captureNamesOf ps ++ literalNamesOf ps) :
    ∃ p ∈ ps, key ∈ p.captureNames ++ p.literalNames := by
  simp only [List.mem_append, mem_captureNamesOf, mem_literalNamesOf] at h ⊢
  rcases h with ⟨p, hp, hkey⟩ | ⟨p, hp, hkey⟩
  · exact ⟨p, hp, .inl hkey⟩
  · exact ⟨p, hp, .inr hkey⟩

theorem binds_of_mem_names (hp : ∀ q ∈ p.parts true, q.SharesName key)
    (hkey : key ∈ p.captureNames ++ p.literalNames) : p.binds key = true := by
  induction p using ind with
  | anything | anyMore | ofKind kind | excluding p _ => cases hkey
  | capture p k ih =>
      rw [binds, Bool.or_eq_true, beq_iff_eq]
      rcases List.mem_cons.1 hkey with rfl | hkey
      · exact .inl rfl
      · exact .inr (ih (fun q hq => hp q (List.mem_cons_of_mem _ hq)) hkey)
  | anyOf ps ih =>
      obtain ⟨q, hq, hkey⟩ := exists_mem_names hkey
      refine binds_anyOf.2 fun r hr => ih r hr (fun q' hq' => hp q' ?_) (hp _ (mem_parts_self _) q hq r hr hkey)
      exact List.mem_cons_of_mem _ (mem_partsOf.2 ⟨r, hr, hq'⟩)
  | allOf ps ih =>
      obtain ⟨q, hq, hkey⟩ := exists_mem_names hkey
      refine binds_allOf.2 ⟨q, hq, ih q hq (fun q' hq' => hp q' ?_) hkey⟩
      exact List.mem_cons_of_mem _ (mem_partsOf.2 ⟨q, hq, hq'⟩)
  | commuting p ih => exact ih (fun q hq => hp q (List.mem_cons_of_mem _ hq)) hkey
  | literal v =>
      cases v with
      | name s hints => exact beq_iff_eq.2 (List.mem_singleton.1 hkey).symm
      | _ => cases hkey
  | node h ps ih _ =>
      obtain ⟨q, hq, hkey⟩ := exists_mem_names hkey
      refine binds_node.2 ⟨q, hq, ih q hq (fun q' hq' => hp q' ?_) hkey⟩
      exact List.mem_cons_of_mem _ (mem_partsOf.2 ⟨q, hq, hq'⟩)

/-! ### Captures under a name -/

/-- What has been captured under a name is there after a match, too. -/
theorem isSome_find?_of_matcher (hmatch : matcher commute p t found = some found')
    (hkey : (found.find? key).isSome = true) : (found'.find? key).isSome = true := by
  refine rel_of_matcher (Q := fun _ => True)
    (R := fun f g => (f.find? key).isSome = true → (g.find? key).isSome = true)
    ⟨fun _ _ _ => trivial, fun _ _ => trivial⟩ (fun _ => id) (fun hfg hgh hf => hgh (hfg hf)) p
    (fun k _ u f f' _ hbind hf => ?_) t found found' trivial hmatch hkey
  rw [Captures.eq_insert_of_bind hbind, Table.find?_insert]
  split
  · rfl
  · exact hf

/-- A name that a pattern binds is captured where the pattern matches, unless the tree contains it. -/
abbrev Binding (commute : Bool) (key : String) (p : Pattern) : Prop :=
  ∀ ⦃t found found'⦄, matcher commute p t found = some found' →
    (found'.find? key).isSome = true ∨ key ∈ t.nameKeys

theorem Takes.isSome_find? (htakes : Takes (ps.map (matcher commute)) ts found left found')
    (hkey : (found.find? key).isSome = true) : (found'.find? key).isSome = true :=
  (htakes.rel (Q := fun _ => True)
    (R := fun f g => (f.find? key).isSome = true → (g.find? key).isSome = true) (fun _ => id)
    (fun hfg hgh hf => hgh (hfg hf))
    (List.forall_mem_map.2 fun _ _ _ _ _ _ => isSome_find?_of_matcher) fun _ _ => trivial).1 hkey

/-- One of several patterns that match different trees binds a name. -/
theorem isSome_or_mem_of_takes (hp : p ∈ ps) (hbinding : Binding commute key p)
    (htakes : Takes (ps.map (matcher commute)) ts found left found') :
    (found'.find? key).isSome = true ∨ ∃ t ∈ ts, key ∈ t.nameKeys := by
  induction ps generalizing ts found with
  | nil => cases hp
  | cons q ps ih =>
      rw [List.map_cons] at htakes
      cases htakes with
      | @cons _ _ before after _ t _ found₁ _ hfirst hrest =>
          rcases List.mem_cons.1 hp with rfl | hp
          · exact (hbinding hfirst).imp hrest.isSome_find? fun hkey => ⟨t, by simp, hkey⟩
          · refine (ih hp hrest).imp_right fun ⟨u, hu, hkey⟩ => ⟨u, ?_, hkey⟩
            rcases List.mem_append.1 hu with hu | hu
            · exact List.mem_append_left _ hu
            · exact List.mem_append_right _ (List.mem_cons_of_mem t hu)

theorem isSome_or_mem_of_anyOrder (hp : p ∈ qs) (hbinds : p.binds key = true)
    (hbinding : Binding true key p)
    (hmatch : anyOrder symbol (qs.map toOperand) t found = some found') :
    (found'.find? key).isSome = true ∨ ∃ u ∈ t.operandsOf symbol, key ∈ u.nameKeys := by
  rw [anyOrder_eq_assign] at hmatch
  obtain ⟨left, found₁, htakes, hfinish⟩ := exists_takes_of_assign hmatch
  have hkeep (h : (found₁.find? key).isSome = true) : (found'.find? key).isSome = true := by
    unfold absorb at hfinish
    split at hfinish
    · obtain ⟨u, -, hlast⟩ := Option.bind_eq_some_iff.1 hfinish
      exact isSome_find?_of_matcher hlast h
    · split_ifs at hfinish
      cases hfinish
      exact h
  rw [← single_append_rest? qs] at hp
  rcases List.mem_append.1 hp with hp | hp
  · exact (isSome_or_mem_of_takes hp hbinding htakes).imp_left hkeep
  · -- The pattern for what is left binds nothing but its own name.
    have hrest : rest? qs = some p := Option.mem_toList.1 hp
    rw [hrest] at hfinish
    obtain ⟨u, -, hlast⟩ := Option.bind_eq_some_iff.1 hfinish
    rcases takesRest_of_rest? hrest with rfl | ⟨k, rfl⟩
    · cases hbinds
    · have hkey : k = key := by simpa [binds] using hbinds
      obtain ⟨found₂, -, hbind⟩ := Option.bind_eq_some_iff.1 hlast
      rw [Captures.eq_insert_of_bind hbind, Table.find?_insert, if_pos hkey.symm]
      exact .inl rfl

theorem mem_nameKeys_of_eqv {v w : Value} (heqv : v.eqv w = true) (hv : (literal v).binds key = true) :
    key ∈ (Tree.leaf w).nameKeys := by
  refine Tree.mem_nameKeys.2 ?_
  cases v with
  | name a hints =>
      cases w with
      | name b hints' =>
          rw [binds, beq_iff_eq] at hv
          rw [Value.eqv, Bool.and_eq_true, beq_iff_eq] at heqv
          exact ⟨b, hints', List.mem_singleton_self _, heqv.1.symm.trans hv⟩
      | _ => cases heqv
  | _ => cases hv

/-- What a pattern binds is bound where it matches: each name is captured, or a name of the tree. -/
theorem binding_of_binds (hp : p.binds key = true) : Binding commute key p := by
  -- The names of arguments and of operands are names of the tree.
  have hinherited (t : Tree) := Tree.isInherited_leaves
    (P := fun v => ∀ s hints, v = .name s hints → Text.lower s ∈ t.nameKeys) (by rintro _ hv s hints rfl; cases hv)
  have hself (t : Tree) := Tree.nameKeys_subset_iff.1 (List.Subset.refl t.nameKeys)
  induction p using ind generalizing commute with
  | anything | anyMore | ofKind kind | excluding p _ => cases hp
  | capture p k ih =>
      intro t found found' hmatch
      obtain ⟨found₁, hfirst, hbind⟩ := Option.bind_eq_some_iff.1 hmatch
      rw [binds, Bool.or_eq_true, beq_iff_eq] at hp
      rw [Captures.eq_insert_of_bind hbind, Table.find?_insert]
      by_cases hkey : key = k
      · rw [if_pos hkey]
        exact .inl rfl
      · rw [if_neg hkey]
        exact ih (hp.resolve_left (Ne.symm hkey)) hfirst
  | anyOf ps ih =>
      intro t found found' hmatch
      rw [matcher_anyOf] at hmatch
      obtain ⟨p, hmem, hmatch⟩ := List.exists_of_findSome?_eq_some hmatch
      exact ih p hmem (binds_anyOf.1 hp p hmem) hmatch
  | allOf ps ih =>
      intro t found found' hmatch
      rw [matcher_allOf] at hmatch
      obtain ⟨p, hmem, hp⟩ := binds_allOf.1 hp
      refine (isSome_or_mem_of_takes hmem (ih p hmem hp) (.of_pairwise hmatch)).imp_right ?_
      rintro ⟨u, hu, hkey⟩
      obtain ⟨-, -, rfl⟩ := List.mem_map.1 hu
      exact hkey
  | commuting p ih => exact ih hp
  | literal v =>
      intro t found found' hmatch
      cases t with
      | node k ts => cases hmatch
      | leaf w =>
          rw [matcher] at hmatch
          split_ifs at hmatch with heqv
          exact .inr (mem_nameKeys_of_eqv heqv hp)
  | node h ps ih ihoperands =>
      intro t found found' hmatch
      obtain ⟨p, hmem, hp⟩ := binds_node.1 hp
      cases t with
      | leaf w => cases hmatch
      | node k ts =>
          cases hany : anyOrder? commute h ps with
          | none =>
              rw [matcher_node_pairwise hany] at hmatch
              split_ifs at hmatch
              refine (isSome_or_mem_of_takes hmem (ih p hmem hp) (.of_pairwise hmatch)).imp_right ?_
              rintro ⟨u, hu, hkey⟩
              exact Tree.nameKeys_subset_iff.2 ((hinherited _).args (hself _) u hu) hkey
          | some symbol =>
              rw [matcher_node_anyOrder hany] at hmatch
              split_ifs at hmatch
              obtain ⟨q, hq, hbinds⟩ := exists_binds_operandsOf symbol hp
              have hq : q ∈ ps.flatMap (operandsOf symbol) := List.mem_flatMap.2 ⟨p, hmem, hq⟩
              refine (isSome_or_mem_of_anyOrder hq hbinds (ihoperands symbol q hq hbinds) hmatch).imp_right ?_
              rintro ⟨u, hu, hkey⟩
              exact Tree.nameKeys_subset_iff.2 ((hinherited _).operandsOf symbol (hself _) u hu) hkey

end Pattern

/-! ### What a rule makes -/

/-- A value is a name whose key is among some keys, or has no name in it. -/
def Value.IsNamedFrom (names : List String) (v : Value) : Prop :=
  v.isPlain = true ∧ ∀ s hints, v = .name s hints → Text.lower s ∈ names

theorem Value.isNamedFrom_of_isNameless {v : Value} (names : List String) (hv : v.isNameless = true) :
    v.IsNamedFrom names := by
  refine ⟨isPlain_of_isNameless hv, ?_⟩
  rintro s hints rfl
  cases hv

namespace Tree

variable {names : List String} {s : Scope} {t u : Tree} {found : Captures}

theorem leaves_isNamedFrom_iff :
    (t.Leaves fun v => v.IsNamedFrom names) ↔ t.NamesAreLeaves ∧ t.nameKeys ⊆ names := by
  rw [nameKeys_subset_iff]
  exact ⟨fun h => ⟨fun v hv => (h v hv).1, fun v hv => (h v hv).2⟩, fun h v hv => ⟨h.1 v hv, h.2 v hv⟩⟩

/-- In a tree that is filled in, all names are those of what has been captured, as long as its own names have
been captured or are among them. -/
theorem leaves_fill (ht : t.NamesAreLeaves)
    (hfound : ∀ key u, found.find? key = some u → u.Leaves fun v => v.IsNamedFrom names)
    (hkeys : ∀ key ∈ t.nameKeys, (found.find? key).isSome = true ∨ key ∈ names) :
    (t.fill found).Leaves fun v => v.IsNamedFrom names := by
  intro v hv
  rcases mem_subtrees_fill t hv with ⟨w, hw, heq⟩ | ⟨key, w, hw, hv⟩
  · cases w with
    | node => cases heq
    | leaf a =>
        have ha := ht a hw
        cases a with
        | name a hints =>
            rw [fill] at heq
            cases hfind : found.find? (Text.lower a) with
            | some w =>
                rw [hfind] at heq
                exact hfound _ _ hfind v (show leaf v ∈ w.subtrees from heq ▸ mem_subtrees_self _)
            | none =>
                rw [hfind] at heq
                cases heq
                refine ⟨rfl, ?_⟩
                rintro _ _ ⟨⟩
                have hkey := hkeys _ (mem_nameKeys.2 ⟨a, hints, hw, rfl⟩)
                rw [hfind] at hkey
                exact hkey.resolve_left Bool.false_ne_true
        | _ =>
            cases heq
            exact Value.isNamedFrom_of_isNameless names ha
  · exact hfound key w hw v hv

open MathExpr.Action (returns_pure returns_bind)

mutual

/-- Evaluating parts of a tree brings no names in. -/
theorem returns_leaves_evalParts (hs : s.IsNameless) : (t : Tree) → (t.Leaves fun v => v.IsNamedFrom names) →
    (t.evalParts s).Returns fun u => u.Leaves fun v => v.IsNamedFrom names
  | .leaf v, ht => returns_pure ht
  | .node h args, ht => by
      by_cases heval : ∃ t, h = .call "eval" ∧ args = [t]
      · obtain ⟨t, rfl, rfl⟩ := heval
        have ht := leaves_node.1 ht t List.mem_cons_self
        refine returns_bind (Scope.returns_isNameless_eval hs fun v hv => (ht v hv).1) fun v hv => ?_
        exact returns_pure (leaves_leaf.2 (Value.isNamedFrom_of_isNameless names hv))
      · rw [evalParts_node fun t hh hargs => heval ⟨t, hh, hargs⟩]
        exact returns_bind (returns_leaves_evalPartsOf hs args (leaves_node.1 ht)) fun us hus =>
          returns_pure (leaves_node.2 hus)

theorem returns_leaves_evalPartsOf (hs : s.IsNameless) :
    (ts : List Tree) → (∀ t ∈ ts, t.Leaves fun v => v.IsNamedFrom names) →
      (evalPartsOf s ts).Returns fun us => ∀ u ∈ us, u.Leaves fun v => v.IsNamedFrom names
  | [], _ => returns_pure (List.forall_mem_nil _)
  | t :: ts, hts => by
      obtain ⟨ht, hts⟩ := List.forall_mem_cons.1 hts
      refine returns_bind (returns_leaves_evalParts hs t ht) fun u hu => ?_
      exact returns_bind (returns_leaves_evalPartsOf hs ts hts) fun us hus =>
        returns_pure (List.forall_mem_cons.2 ⟨hu, hus⟩)

end

end Tree

/-- Whatever is captured has the names of the tree. -/
theorem Pattern.isNamedFrom_of_find {p : Pattern} {t : Tree} {commute : Bool} {found : Captures}
    (ht : t.NamesAreLeaves) (hfind : p.find t commute = some found) :
    ∀ key u, found.find? key = some u → u.Leaves fun v => v.IsNamedFrom t.nameKeys := by
  have hinherited := Tree.isInherited_leaves fun v => Value.isNamedFrom_of_isNameless (v := v) t.nameKeys
  refine rel_of_matcher (R := fun f g => (∀ key u, f.find? key = some u → u.Leaves fun v =>
    v.IsNamedFrom t.nameKeys) → ∀ key u, g.find? key = some u → u.Leaves fun v => v.IsNamedFrom t.nameKeys)
    hinherited (fun _ => id) (fun hfg hgh hf => hgh (hfg hf)) p (fun key _ u f f' hu hbind hf k w hw => ?_) t
    .empty found (Tree.leaves_isNamedFrom_iff.2 ⟨ht, List.Subset.refl _⟩) hfind nofun
  rw [Captures.eq_insert_of_bind hbind, Table.find?_insert] at hw
  split at hw
  · cases hw
    exact hu
  · exact hf k w hw

namespace Rule

variable {r : Rule} {s : Scope} {t : Tree}

/-- Where the pattern of a rule binds all names of the result, all names in what the rule makes of a tree are names
of the tree. -/
theorem nameKeys_subset_of_apply (hr : ∀ key ∈ r.result.nameKeys, r.pattern.binds key = true)
    (hresult : r.result.NamesAreLeaves) (ht : t.NamesAreLeaves) (hs : s.HasPlainBodies) :
    (r.apply s t).Returns fun u => ∀ v ∈ u, v.nameKeys ⊆ t.nameKeys := by
  have hs : s.withoutVariables.IsNameless := ⟨nofun, hs.child⟩
  unfold apply transform
  cases hfind : r.pattern.find t false with
  | none => exact Action.returns_pure nofun
  | some found =>
      have hfill := Tree.leaves_fill hresult (Pattern.isNamedFrom_of_find ht hfind) fun key hkey =>
        Pattern.binding_of_binds (hr key hkey) hfind
      -- Conditions decide whether the rule applies, but not what it makes.
      refine Action.returns_bind (Action.returns_true _) fun met _ => ?_
      split
      · refine Action.returns_bind (Action.returns_attempt (Tree.returns_leaves_evalParts hs _ hfill)) fun o ho => ?_
        split
        · refine Action.returns_pure fun v hv => ?_
          cases hv
          exact (Tree.leaves_isNamedFrom_iff.1 (ho _ rfl)).2
        · exact Action.returns_pure nofun
      · exact Action.returns_pure nofun

section Made

variable {serial : Nat} {name : String} {p : Pattern} {conditions : List (Option Tree)} {result : Option Tree}

/-- The names in the result of a rule that is made are captured by the pattern, or stand for themselves in it. -/
theorem mem_names_of_make (hmake : make serial name p conditions result = .ok r) :
    r.pattern = p ∧ ∀ key ∈ r.result.nameKeys, key ∈ p.captureNames ++ p.literalNames := by
  unfold make at hmake
  split at hmake
  · cases hmake
  · split at hmake
    · cases hmake
    · rename_i hunbound
      cases hmake
      refine ⟨rfl, fun key hkey => ?_⟩
      obtain ⟨s, hints, hs, rfl⟩ := Tree.mem_nameKeys.1 hkey
      by_contra hnot
      have hnone := List.findSome?_eq_none_iff.1 hunbound _ hs
      rw [List.mem_append, not_or] at hnot
      simp [Tree.name?, hnot] at hnone

/-- **No name is left unbound.** If a rule can be made, and alternatives in its pattern have the same names of those
in its result, then all names in what the rule makes of a tree are names of the tree. -/
theorem nameKeys_subset_of_make (hmake : make serial name p conditions result = .ok r)
    (hp : ∀ key ∈ r.result.nameKeys, ∀ q ∈ p.parts true, q.SharesName key)
    (hresult : r.result.NamesAreLeaves) (ht : t.NamesAreLeaves) (hs : s.HasPlainBodies) :
    (r.apply s t).Returns fun u => ∀ v ∈ u, v.nameKeys ⊆ t.nameKeys := by
  obtain ⟨rfl, hnames⟩ := mem_names_of_make hmake
  refine nameKeys_subset_of_apply (fun key hkey => ?_) hresult ht hs
  exact Pattern.binds_of_mem_names (hp key hkey) (hnames key hkey)

/-- `m_any(?;x + $n;n, $n;n + ?;x)` becomes `eval(n + n) + x`, for `2 + y` -/
theorem nameKeys_subset_of_make_sum :
    let n : Pattern := .capture (.ofKind "number") "n"
    let x : Pattern := .capture .anything "x"
    let name (s : String) : Tree := .leaf (.name s [])
    let p : Pattern := .anyOf [.binary "+" x n, .binary "+" n x]
    let result : Tree := .binary "+" (.node (.call "eval") [.binary "+" (name "n") (name "n")]) (name "x")
    let r : Rule := ⟨0, "", p, [], result⟩
    let t : Tree := .binary "+" (.leaf (.nat 2)) (name "y")
    make 0 "" p [] (some result) = .ok r ∧ (∀ key ∈ result.nameKeys, ∀ q ∈ p.parts true, q.SharesName key) ∧
      result.NamesAreLeaves ∧ t.NamesAreLeaves ∧ Library.scope.HasPlainBodies ∧
        (r.apply Library.scope t).Returns fun u => ∀ v ∈ u, v.nameKeys ⊆ t.nameKeys := by
  intro n x name p result r t
  have hmake : make 0 "" p [] (some result) = .ok r := by rfl
  have hp : ∀ key ∈ result.nameKeys, ∀ q ∈ p.parts true, q.SharesName key := by decide +kernel
  have hresult : result.NamesAreLeaves := by decide +kernel
  have ht : t.NamesAreLeaves := by decide +kernel
  have hs : Library.scope.HasPlainBodies := fun name f hf _ _ _ hbody =>
    absurd hbody (Scope.holdsBuiltIns_scope.body_ne_custom name f hf _ _ _)
  exact ⟨hmake, hp, hresult, ht, hs, nameKeys_subset_of_make hmake hp hresult ht hs⟩

end Made

/-- The rule that replaces `m_any(1, ?;x^0)` by `x` is made, and makes `x` of `1`. -/
theorem not_nameKeys_subset_of_make :
    let p : Pattern := .anyOf [.literal (.nat 1), .binary "^" (.capture .anything "x") (.literal (.nat 0))]
    let x : Tree := .leaf (.name "x" [])
    let one : Tree := .leaf (.nat 1)
    ∃ r, make 0 "" p [] (some x) = .ok r ∧
      (∀ d, Action.runFrom (r.apply .empty one) d = (.ok (some x), d)) ∧ ¬x.nameKeys ⊆ one.nameKeys := by
  intro p x one
  exact ⟨⟨0, "", p, [], x⟩, rfl, fun d => rfl, by decide +kernel⟩

end Rule

end MathExpr
