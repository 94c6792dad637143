import MathExpr.Proofs.EvenSums

/-!
# The basic rules and values

The rules for signs and the order of operations keep the value of a tree of literals
(`Ruleset.value_simplifyTracing_basic`) as long as the numbers on the way are small, and
of the sums that are lists or texts only those are rewritten that may be regrouped. This is
so for all trees whose sums have operands of one kind
(`Ruleset.value_simplifyTracing_basic_of_isEven`).
-/

namespace MathExpr

open MathExpr.Action (runFrom)

/-! ### The ruleset -/

namespace Ruleset

/-- The built-in ruleset for signs and the order of operations. -/
def basic : Ruleset := (Library.rulesets.find? "basic").getD ⟨[], .empty⟩

/-- What is selected by the name of the ruleset. -/
def selectedBasic : Ruleset := make basic.rules (Table.empty.insertAll (setFlags basic.flags))

theorem mem_polynomialRules_of_basic {r : Rule} (hr : r ∈ basic.rules) : r ∈ Library.polynomialRules := by
  refine List.mem_flatMap.2 ⟨"basic", by decide, ?_⟩
  show r ∈ ((Library.rulesets.find? "basic").map Ruleset.rules).getD []
  change r ∈ ((Library.rulesets.find? "basic").getD ⟨[], .empty⟩).rules at hr
  generalize Library.rulesets.find? "basic" = found at hr ⊢
  cases found <;> exact hr

/-- The basic rules, made from trees: they regroup sums or pass over them, and only calculate parts of what
they apply to. -/
def basicOfTrees : { R : Ruleset //
    R.rules.all (fun r => (r.isRegrouping || r.passesSums) && r.calculatesParts) = true } :=
  ⟨(Library.treeRulesets.find? "basic").getD ⟨[], .empty⟩, by decide +kernel⟩

/-- The basic rules regroup sums or pass over them, and only calculate parts of what they apply to. -/
theorem basic_rules : ∀ r ∈ basic.rules,
    (r.isRegrouping || r.passesSums) = true ∧ r.calculatesParts = true := by
  have hall : basic.rules.all (fun r => (r.isRegrouping || r.passesSums) && r.calculatesParts) = true := by
    unfold basic
    rw [Library.rulesets_eq]
    exact basicOfTrees.2
  exact fun r hr => Bool.and_eq_true_iff.1 (List.all_eq_true.1 hall r hr)

theorem mem_of_mem_distinct {r : Rule} {rs : List Rule} (h : r ∈ Rule.distinct rs) : r ∈ rs := by
  have hfold : ∀ (rs seen : List Rule),
      r ∈ rs.foldl (fun seen r => if r.isIn seen then seen else seen ++ [r]) seen → r ∈ seen ∨ r ∈ rs := by
    intro rs
    induction rs with
    | nil => exact fun seen h => .inl h
    | cons first rest ih =>
        intro seen h
        rcases ih _ h with h | h
        · dsimp only at h
          split at h
          · exact .inl h
          · rcases List.mem_append.1 h with h | h
            · exact .inl h
            · exact .inr (List.mem_singleton.1 h ▸ List.mem_cons_self)
        · exact .inr (List.mem_cons_of_mem first h)
  exact (hfold rs [] h).resolve_left List.not_mem_nil

end Ruleset

namespace Library

theorem find?_addRulesets {rs : List (String × Ruleset)} (hrs : (rs.map Prod.fst).Nodup) (s : Scope)
    (name : String) :
    (rs.foldl (fun s r => s.addRuleset r.1 (.ruleset r.2)) s).rulesets.find? name =
      ((rs.lookup name).map Selection.ruleset).or (s.rulesets.find? name) := by
  induction rs generalizing s with
  | nil => rfl
  | cons e rest ih =>
      obtain ⟨key, r⟩ := e
      obtain ⟨hkey, hrest⟩ := List.nodup_cons.1 hrs
      have hinsert : (s.addRuleset key (.ruleset r)).rulesets.find? name =
          if name = key then some (.ruleset r) else s.rulesets.find? name :=
        Table.find?_insert s.rulesets key name (.ruleset r)
      rw [List.foldl_cons, ih hrest, hinsert, List.lookup_cons]
      by_cases hname : name = key
      · subst hname
        have hnone : rest.lookup name = none := List.lookup_eq_none_iff.2 fun e he =>
          bne_iff_ne.2 fun heq => hkey (List.mem_map.2 ⟨e, he, heq.symm⟩)
        rw [hnone, if_pos rfl, beq_self_eq_true]
        rfl
      · rw [if_neg hname, beq_eq_false_iff_ne.2 hname]

/-- The name of the ruleset selects it. -/
theorem ruleset_basic : scope.ruleset (.text "basic") = .ok Ruleset.selectedBasic := by
  have hentries : (Selection.text "basic").toEntries = [.named "basic"] := by
    with_unfolding_all rfl
  have hname : Ruleset.splitExclusion "basic" = (false, "basic") := by decide +kernel
  have hflag : Ruleset.flagNames.contains (Text.lower "basic") = false := by decide +kernel
  have hdistinct : (rulesets.entries.map Prod.fst).Nodup := by
    rw [rulesets_eq]
    decide +kernel
  have hfind : scope.rulesets.find? "basic" = some (.ruleset Ruleset.basic) := by
    have hsome : (rulesets.find? "basic").isSome = true := by
      rw [rulesets_eq]
      decide +kernel
    obtain ⟨r, hr⟩ := Option.isSome_iff_exists.1 hsome
    have hbasic : Ruleset.basic = r := by
      unfold Ruleset.basic
      rw [hr]
      rfl
    rw [hbasic]
    refine (find?_addRulesets hdistinct _ "basic").trans ?_
    change (Option.map _ (rulesets.find? "basic")).or _ = _
    rw [hr]
    rfl
  have hadd : ∀ depth, Ruleset.addEntry scope.rulesets (Ruleset.collectWith scope.rulesets depth)
      ([], .empty) (.named "basic") =
        .ok (Ruleset.basic.rules, Table.empty.insertAll (Ruleset.setFlags Ruleset.basic.flags)) := by
    intro depth
    have hcollect : Ruleset.collectWith scope.rulesets depth (.ruleset Ruleset.basic) = .ok Ruleset.basic := by
      cases depth <;> rfl
    unfold Ruleset.addEntry Ruleset.lookup
    simp only [hname, hflag, hfind, mapError_ok]
    rw [if_neg Bool.false_ne_true]
    show (Ruleset.collectWith scope.rulesets depth (.ruleset Ruleset.basic) >>= _) = _
    rw [hcollect]
    show Except.ok ([] ++ Ruleset.basic.rules, _) = _
    rw [List.nil_append]
  unfold Scope.ruleset Ruleset.collect Ruleset.collectWith
  rw [hentries, List.foldlM_cons, hadd]
  rfl

theorem mem_basic_of_ruleset {R : Ruleset} (hR : scope.ruleset (.text "basic") = .ok R) {r : Rule}
    (hr : r ∈ R.rules) : r ∈ Ruleset.basic.rules := by
  cases ruleset_basic.symm.trans hR
  exact Ruleset.mem_of_mem_distinct hr

end Library

/-! ### Simplification -/

namespace Ruleset

open Simplify (Proceeds FiresAt IsSafeWay)

theorem signatures_withoutVariables :
    Library.scope.withoutVariables.signatures = Library.scope.signatures := by
  funext name
  show (Library.scope.child.functions.find? (Text.lower name)).getD [] = _
  rw [Library.child_scope]
  rfl

theorem calculateSmall_basic {R : Ruleset} (hR : ∀ r ∈ R.rules, r ∈ basic.rules) :
    Simplify.CalculateSmall R.rules :=
  Simplify.calculateSmall_of_calculatesParts fun r hr => (basic_rules r (hR r hr)).2

/-- On a safe way, simplification keeps the value. -/
theorem exists_eval_of_isSafeWay {R : Ruleset} (hR : ∀ r ∈ R.rules, r ∈ basic.rules) {limit : Int}
    {t u : Tree} {fired : List Firing} {d d' : Draws} (ht : t.OfLiterals)
    (hrun : runFrom (R.simplifyTracing Library.scope limit t) d = (.ok (u, fired), d'))
    (hway : IsSafeWay Library.scope.withoutVariables R.rules t u) {e e' : Draws} {a : Value}
    (heval : runFrom (Library.scope.eval t) e = (.ok a, e')) :
    ∃ b, runFrom (Library.scope.eval u) e = (.ok b, e') ∧ a.eqv b = true := by
  obtain ⟨-, hkeeps⟩ := (proceeds_of_simplifyTracing hrun).keepsContent Library.hasArithmetic_scope
    (fun _ => rfl) (fun r hr => mem_polynomialRules_of_basic (hR r hr)) (calculateSmall_basic hR) hway ht
  obtain ⟨b, hb, c, hac, hbc⟩ := hkeeps e a e' heval
  exact ⟨b, hb, Value.eqv_of_content? c a b hac hbc⟩

/-- **The basic rules keep values.** What simplification makes of a tree of integers, texts and lists with
sums, differences, products and signs evaluates to a value that is equal to the value of the tree, provided
that on the way from the tree to the result all numbers are integers up to `2 ^ 53` in magnitude, and that a
rule only fires at a part that is a list or a text if this part may be regrouped. -/
theorem value_simplifyTracing_basic {R : Ruleset} (hR : Library.scope.ruleset (.text "basic") = .ok R)
    {limit : Int} {t u : Tree} {fired : List Firing} {d d' : Draws} (ht : t.OfLiterals)
    (hrun : runFrom (R.simplifyTracing Library.scope limit t) d = (.ok (u, fired), d'))
    (hsmall : ∀ w, Proceeds Library.scope.withoutVariables R.rules t w →
      Proceeds Library.scope.withoutVariables R.rules w u → w.StaysSmall)
    (hsums : ∀ v v' w w', Proceeds Library.scope.withoutVariables R.rules t w →
      FiresAt Library.scope.withoutVariables R.rules v v' w w' →
      Proceeds Library.scope.withoutVariables R.rules w' u →
        v.kind? = some "number" ∨ ∃ x, v.Regroups x)
    {e e' : Draws} {a : Value} (heval : runFrom (Library.scope.eval t) e = (.ok a, e')) :
    ∃ b, runFrom (Library.scope.eval u) e = (.ok b, e') ∧ a.eqv b = true := by
  have hbasic : ∀ r ∈ R.rules, r ∈ basic.rules := fun _ => Library.mem_basic_of_ruleset hR
  refine exists_eval_of_isSafeWay hbasic ht hrun ⟨hsmall, fun v v' w w' htw hfires hwu => ?_⟩ heval
  rcases hsums v v' w w' htw hfires hwu with hnumber | ⟨x, hregroups⟩
  · exact .inl (Tree.exists_integer?_of_kind? v hnumber)
  · obtain ⟨r, hr, c, c', hrun⟩ := hfires.exists_rule
    exact .inr (Rule.regroups_of_transform signatures_withoutVariables (fun _ => rfl)
      (basic_rules r (hbasic r hr)).1 hregroups c _ c' hrun v' rfl)

/-- `[1] + ([2] + [3 - (-4)])` -/
def nestedLists : Tree :=
  .binary "+" (.node .list [.leaf (.nat 1)]) (.binary "+" (.node .list [.leaf (.nat 2)])
    (.node .list [.binary "-" (.leaf (.nat 3)) (.node (.op ⟨"-u", .before⟩) [.leaf (.nat 4)])]))

/-- Whether a tree evaluates to a value that is equal to another. -/
def evaluatesTo (t : Tree) (v : Value) (d : Draws) : Bool :=
  match runFrom (Library.scope.eval t) d with
  | (.ok a, _) => a.eqv v
  | _ => false

theorem exists_of_evaluatesTo {t : Tree} {v : Value} {d : Draws} (h : evaluatesTo t v d = true) :
    ∃ a d', runFrom (Library.scope.eval t) d = (.ok a, d') ∧ a.eqv v = true := by
  unfold evaluatesTo at h
  split at h
  · rename_i a d' hrun
    exact ⟨a, d', hrun, h⟩
  · cases h

theorem fires_nestedLists :
    fires (selectedBasic.simplifyTracing Library.scope Simplify.usualLimit nestedLists) .default = true := by
  unfold simplifyTracing Scope.withoutVariables selectedBasic basic
  rw [Library.child_scope, Library.scope_eq, Library.rulesets_eq]
  decide +kernel

theorem isEven_nestedLists : nestedLists.IsEven := by
  have hall : nestedLists.subtrees.all Tree.isEvenPart = true := by decide +kernel
  exact List.all_eq_true.1 hall

theorem value_simplifyTracing_basic_nestedLists :
    ∃ R u p fired d', Library.scope.ruleset (.text "basic") = .ok R ∧
      runFrom (R.simplifyTracing Library.scope Simplify.usualLimit nestedLists) .default =
        (.ok (u, p :: fired), d') ∧
      ∃ (a b : Value) (e : Draws), a.eqv (.list [.real 1, .real 2, .real 7]) = true ∧
        runFrom (Library.scope.eval u) .default = (.ok b, e) ∧ a.eqv b = true := by
  obtain ⟨u, p, fired, d', hrun⟩ := exists_of_fires fires_nestedLists
  have hvalue : evaluatesTo nestedLists (.list [.real 1, .real 2, .real 7]) .default = true := by
    unfold evaluatesTo
    rw [Library.scope_eq]
    decide +kernel
  obtain ⟨a, e, heval, ha⟩ := exists_of_evaluatesTo hvalue
  have hbasic : ∀ r ∈ selectedBasic.rules, r ∈ basic.rules := fun _ => mem_of_mem_distinct
  have hway : IsSafeWay Library.scope.withoutVariables selectedBasic.rules nestedLists u :=
    Simplify.isSafeWay_of_isEven signatures_withoutVariables (fun _ => rfl)
      (fun r hr => mem_polynomialRules_of_basic (hbasic r hr)) (calculateSmall_basic hbasic)
      (fun r hr => (basic_rules r (hbasic r hr)).1) isEven_nestedLists u
  obtain ⟨k, hk⟩ := isEven_nestedLists.exists_kind?
  refine ⟨_, u, p, fired, d', Library.ruleset_basic, hrun, a, ?_⟩
  obtain ⟨b, hb, hab⟩ := value_simplifyTracing_basic Library.ruleset_basic (Tree.ofLiterals_of_kind? _ k hk)
    hrun hway.small (fun v v' w w' htw hfires hwu =>
      (hway.safe v v' w w' htw hfires hwu).imp (fun ⟨n, hn⟩ => Tree.kind?_of_integer? v n hn)
        fun h => ⟨v', h⟩) heval
  exact ⟨b, e, ha, hb, hab⟩

/-- Simplification keeps the value of a tree, if this is one of literals and only integers below `2 ^ 53` in
magnitude are met in its evaluation. -/
def KeepsValue (R : Ruleset) (t : Tree) : Prop :=
  t.OfLiterals → (∀ v ∈ t.subtrees, ∀ n, v.integer? = some n → n.natAbs < 2 ^ 53) →
    ∀ limit u fired d d', runFrom (R.simplifyTracing Library.scope limit t) d = (.ok (u, fired), d') →
      ∀ e e' a, runFrom (Library.scope.eval t) e = (.ok a, e') →
        ∃ b e'', runFrom (Library.scope.eval u) e = (.ok b, e'') ∧ a.eqv b = true

/-- Whether a tree and what simplification makes of it evaluate to values that are not equal. -/
def changesValue (R : Ruleset) (t : Tree) (d : Draws) : Bool :=
  match runFrom (R.simplifyTracing Library.scope Simplify.usualLimit t) d with
  | (.ok (u, _), _) =>
    match runFrom (Library.scope.eval t) d, runFrom (Library.scope.eval u) d with
    | (.ok a, _), (.ok b, _) => !a.eqv b
    | _, _ => false
  | _ => false

theorem not_keepsValue_of_changesValue {R : Ruleset} {t : Tree} {d : Draws}
    (hchanges : R.changesValue t d = true) (ht : t.OfLiterals)
    (hsmall : ∀ v ∈ t.subtrees, ∀ n, v.integer? = some n → n.natAbs < 2 ^ 53) : ¬R.KeepsValue t := by
  intro hkeeps
  unfold changesValue at hchanges
  split at hchanges
  · rename_i u fired d' hrun
    split at hchanges
    · rename_i a e b e' ha hb
      obtain ⟨c, e'', hc, hac⟩ := hkeeps ht hsmall _ u fired d d' hrun d e a ha
      cases hb.symm.trans hc
      rw [hac] at hchanges
      cases hchanges
    · cases hchanges
  · cases hchanges

/-- `"a" + (1 + 2)` -/
def joinedSum : Tree :=
  .binary "+" (.leaf (.plainText "a")) (.binary "+" (.leaf (.nat 1)) (.leaf (.nat 2)))

/-- `9007199254740991 + (9007199254740990 - 9007199254740990)` -/
def roundedSum : Tree :=
  .binary "+" (.leaf (.nat 9007199254740991))
    (.binary "-" (.leaf (.nat 9007199254740990)) (.leaf (.nat 9007199254740990)))

/-- Whether a tree is one of literals, and only integers below `2 ^ 53` in magnitude are met in it. -/
def meetsSmallIntegers (t : Tree) : Bool :=
  t.kind?.isSome && t.subtrees.all fun v => (v.integer?.map fun n => decide (n.natAbs < 2 ^ 53)).getD true

/-- The basic rules regroup sums of a text and numbers, and sums of numbers that are so large that they are
rounded then. -/
theorem not_keepsValue_basic :
    ∃ R, Library.scope.ruleset (.text "basic") = .ok R ∧
      ∀ t ∈ [joinedSum, roundedSum], ¬R.KeepsValue t := by
  have hall : ([joinedSum, roundedSum].all fun t =>
      selectedBasic.changesValue t .default && meetsSmallIntegers t) = true := by
    unfold changesValue simplifyTracing Scope.withoutVariables selectedBasic basic
    rw [Library.child_scope, Library.scope_eq, Library.rulesets_eq]
    decide +kernel
  refine ⟨selectedBasic, Library.ruleset_basic, fun t ht => ?_⟩
  obtain ⟨hchanges, hmeets⟩ := Bool.and_eq_true_iff.1 (List.all_eq_true.1 hall t ht)
  obtain ⟨hkind, hsmall⟩ := Bool.and_eq_true_iff.1 hmeets
  obtain ⟨k, hk⟩ := Option.isSome_iff_exists.1 hkind
  refine not_keepsValue_of_changesValue hchanges (Tree.ofLiterals_of_kind? t k hk) fun v hv n hn => ?_
  have hn' := List.all_eq_true.1 hsmall v hv
  rw [hn] at hn'
  exact of_decide_eq_true hn'

/-- The basic rules keep the values of all trees in which sums have operands of one kind. -/
theorem value_simplifyTracing_basic_of_isEven {R : Ruleset} (hR : ∀ r ∈ R.rules, r ∈ basic.rules)
    {limit : Int} {t u : Tree} {fired : List Firing} {d d' : Draws} (ht : t.IsEven)
    (hrun : runFrom (R.simplifyTracing Library.scope limit t) d = (.ok (u, fired), d'))
    {e e' : Draws} {a : Value} (heval : runFrom (Library.scope.eval t) e = (.ok a, e')) :
    ∃ b, runFrom (Library.scope.eval u) e = (.ok b, e') ∧ a.eqv b = true := by
  obtain ⟨k, hk⟩ := ht.exists_kind?
  exact exists_eval_of_isSafeWay hR (Tree.ofLiterals_of_kind? t k hk) hrun
    (Simplify.isSafeWay_of_isEven signatures_withoutVariables (fun _ => rfl)
      (fun r hr => mem_polynomialRules_of_basic (hR r hr)) (calculateSmall_basic hR)
      (fun r hr => (basic_rules r (hR r hr)).1) ht u) heval

end Ruleset

end MathExpr
