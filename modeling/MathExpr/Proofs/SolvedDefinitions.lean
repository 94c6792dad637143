import MathExpr.Proofs.Coincidence
import MathExpr.Proofs.DefinitionOrder
import MathExpr.Proofs.EvaluatedOnce
import MathExpr.Proofs.ValuesAsLeaves

/-!
# Variables solve their definitions

In the scope that is left when a set of variables has been made, the definition of each variable that had
no value before has the value of the variable (`VariableSet.make_solves_definitions`), although most
definitions have been evaluated earlier, with fewer variables in the scope.

What a name comes to is described without an order (`Definition.Resolves`): the value that it had before, or
that of its definition where the names that this mentions have theirs. There is only one such value
(`Resolves.unique`), whatever is bound has it (`closedUnder_resolves`), and a definition has it in every
scope that has grown far enough (`eval_eq_of_resolved`).

A variable that had a value before keeps it, whatever its definition is; and a definition may use a name
that it does not mention, by which it is no longer the same when this is bound. So there are provisos
(`VariableSet.not_solvesAll`).
-/

namespace MathExpr

theorem Scope.value?_eq_none {s : Scope} {n : String} (h : s.binds n = false) : s.value? n = none :=
  Option.not_isSome_iff_eq_none.1 (ne_true_of_eq_false h)

namespace Scope.ShareBuiltIns

variable {r s s' : Scope} {names : List String}

/-- A scope with the functions of a child of one of two scopes that share their functions. -/
theorem extends_of_functions (h : r.ShareBuiltIns s) (hfunctions : s'.functions = s.child.functions)
    (hbinds : ∀ n, Text.lower n ∉ names → s'.binds n = r.binds n) : r.Extends names s' := by
  have hshared : s.Extends [] s :=
    { isRegular := Library.isRegular_of_eachSignature h.symm.eachSignature
      noCustom := fun name f hf => Library.body_ne_custom (h.symm.eachSignature name f hf).1
      isEmpty := fun _ => Iff.rfl
      binds := fun _ _ => rfl }
  have hfunctions' : ({ s' with values := s.values } : Scope).functions = s.child.functions := hfunctions
  have hchild : s.Extends [] _ := hshared.child.of_functions hfunctions' fun _ _ => rfl
  exact ⟨hchild.isRegular, hchild.noCustom, fun name => by rw [h.signatures]; exact hchild.isEmpty name,
    hbinds⟩

/-- Where random choices are made with the functions of one, they are made with those of the other. -/
theorem makesChoices (h : r.ShareBuiltIns s) (hfunctions : s'.functions = s.child.functions) {name : String}
    (hname : s'.MakesChoices name) : r.MakesChoices name := by
  obtain ⟨f, hf, hrandom⟩ := Scope.makesChoices_of_functions hfunctions hname
  exact ⟨f, by rwa [h.signatures], hrandom⟩

end Scope.ShareBuiltIns

/-! ### Trees without slots -/

namespace Tree

mutual

/-- Whether in a tree only functions of some names are applied, no text has slots, and names are bound by
loops over one name only. -/
def isPlain (applicable : String → Bool) : Tree → Bool
  | leaf v => !v.hasSlot
  | node h args =>
    h.name?.all applicable && h.key? != some "satisfy" &&
      (h.key? != some "map" || (args[1]?.bind name?).isSome) && isPlainOf applicable args

/-- Whether all trees of a list are plain. -/
def isPlainOf (applicable : String → Bool) : List Tree → Bool
  | [] => true
  | t :: ts => isPlain applicable t && isPlainOf applicable ts

end

theorem isPlain_of_mem {applicable : String → Bool} {ts : List Tree} (hts : isPlainOf applicable ts = true)
    {t : Tree} (ht : t ∈ ts) : t.isPlain applicable = true := by
  induction ts with
  | nil => cases ht
  | cons u us ih =>
      rw [isPlainOf, Bool.and_eq_true] at hts
      rcases List.mem_cons.1 ht with rfl | ht
      · exact hts.1
      · exact ih hts.2 ht

/-- A plain tree without random choices is orderly, whatever names are bound late. -/
theorem isOrderly_of_isPlain {s : Scope} {late around : List String} {applicable : String → Bool}
    (hchoices : ∀ name, applicable name = true → ¬s.MakesChoices name) {t : Tree}
    (ht : t.isPlain applicable = true) : t.IsOrderly s late around := by
  induction t using ind generalizing around with
  | leaf v =>
      by_cases hv : ∃ content latex, v = .text content false latex
      · obtain ⟨content, latex, rfl⟩ := hv
        have hslots : (Text.Template.ofText content).slots = [] := by
          simpa [isPlain, Value.hasSlot] using ht
        refine .text ?_ ?_ <;> simp [hslots]
      · exact .leaf fun content latex h => hv ⟨content, latex, h⟩
  | node h args ih =>
      simp only [isPlain, Bool.and_eq_true, Bool.or_eq_true, bne_iff_ne] at ht
      obtain ⟨⟨⟨hname, hsatisfy⟩, hmap⟩, hargs⟩ := ht
      refine .node (fun name hn => hchoices name ?_) ⟨?_, ?_⟩ fun i t hi => ?_
      · rw [hn] at hname
        exact hname
      · rintro item names rest hkey rfl hnone
        have hsome := hmap.resolve_left (not_not.2 hkey)
        simp [hnone] at hsome
      · exact fun _ _ _ _ hkey => absurd hkey hsatisfy
      · have hmem := List.mem_of_getElem? hi
        exact ih t hmem (isPlain_of_mem hargs hmem)

end Tree

namespace Definition

/-! ### What names come to -/

/-- The value that a name has when all definitions have been computed: the one that it had before, or that
of its definition where the names that this mentions have theirs. -/
inductive Resolves (definitions : Table Definition) (s₀ : Scope) : String → Value → Prop
  | bound {n : String} {v : Value} (hv : s₀.value? n = some v) : Resolves definitions s₀ n v
  | computed {key : String} {d : Definition} {t : Tree} {w : String → Value} {v : Value}
      (hunbound : s₀.value? key = none) (hd : definitions.find? key = some d) (ht : d.tree = some t)
      (hneeds : ∀ n ∈ d.dependsOn, Resolves definitions s₀ n (w n))
      (hv : ∀ draws, ((s₀.bindAll (d.dependsOn.map fun n => (n, w n))).eval t).runFrom draws =
        (.ok v, draws)) :
      Resolves definitions s₀ key v

variable {definitions : Table Definition} {r s s₀ s' : Scope} {late : List String} {key n : String}
  {v v' : Value} {d : Definition} {t : Tree}

theorem Resolves.unique (h : Resolves definitions s₀ n v) (h' : Resolves definitions s₀ n v') : v = v' := by
  induction h generalizing v' with
  | bound hv =>
      cases h' with
      | bound hv' => exact Option.some.inj (hv.symm.trans hv')
      | computed hunbound => cases hunbound.symm.trans hv
  | @computed key d t w v hunbound hd ht _ hv ih =>
      cases h' with
      | bound hv' => cases hunbound.symm.trans hv'
      | @computed _ d' t' w' _ _ hd' ht' hneeds' hv' =>
          cases hd.symm.trans hd'
          cases ht.symm.trans ht'
          have hbindings : d.dependsOn.map (fun n => (n, w n)) = d.dependsOn.map fun n => (n, w' n) :=
            List.map_congr_left fun n hn => by rw [ih n hn (hneeds' n hn)]
          have hrun := hv .default
          rw [hbindings, hv' .default] at hrun
          cases hrun
          rfl

/-- What is bound anew comes from the definitions. -/
abbrev IsNew (definitions : Table Definition) (s₀ : Scope) (key : String) (v : Value) : Prop :=
  s₀.value? key = none → Resolves definitions s₀ key v

/-- What is bound is what the name comes to. -/
theorem Grown.resolves (h : Grown (IsNew definitions s₀) s₀ s') (hv : s'.value? n = some v) :
    Resolves definitions s₀ (Text.lower n) v := by
  cases hbefore : s₀.value? n with
  | some w =>
      cases (h.kept n w hbefore).symm.trans hv
      exact .bound (by rw [Scope.value?_lower, hbefore])
  | none =>
      rcases h.new n v hv with hold | hnew
      · cases hbefore.symm.trans hold
      · exact hnew (by rw [Scope.value?_lower, hbefore])

/-- Only defined names are bound anew. -/
theorem Grown.exists_definition (h : Grown (IsNew definitions s₀) s₀ s') (hv : s'.value? n = some v)
    (hbefore : s₀.value? n = none) : ∃ d, definitions.find? (Text.lower n) = some d := by
  cases h.resolves hv with
  | bound hold =>
      rw [Scope.value?_lower, hbefore] at hold
      cases hold
  | computed _ hd => exact ⟨_, hd⟩

/-! ### Definitions that have been read -/

/-- Definitions whose trees are orderly, and which mention the names that occur free in their trees, where
slots are read in the scope `r`. -/
structure AreRead (definitions : Table Definition) (r : Scope) (late : List String) : Prop where
  isOrderly : ∀ k d t, definitions.find? k = some d → d.tree = some t → t.IsOrderly r late []
  dependsOn : ∀ k d t, definitions.find? k = some d → d.tree = some t →
    FreeNames.ofTree r.tree [] t = .ok d.dependsOn
  isKey : ∀ k d, definitions.find? k = some d → ∀ n ∈ d.dependsOn, Text.lower n = n

/-- Names that may get a value after definitions have been read in the scope `r`: those that only one of `r`
and the scope `s` of the computation binds, and those that are defined and that `s` does not bind. -/
structure AreLate (definitions : Table Definition) (r s : Scope) (late : List String) : Prop where
  differing : ∀ n, r.binds n ≠ s.binds n → Text.lower n ∈ late
  defined : ∀ k d, definitions.find? k = some d → s.binds k = false → k ∈ late

/-- Other names have a value while definitions are computed if they had one when these were read. -/
theorem AreLate.binds_eq (hlate : AreLate definitions r s late)
    (h : Grown (IsNew definitions s.child) s.child s') (hn : Text.lower n ∉ late) :
    s'.binds n = r.binds n := by
  have hsame : r.binds n = s.binds n := not_not.1 fun hne => hn (hlate.differing n hne)
  rw [hsame]
  cases hbefore : s.value? n with
  | some w => rw [Scope.binds, h.kept n w hbefore, Scope.binds, hbefore]
  | none =>
      rw [Scope.binds, Scope.binds, hbefore]
      cases hv : s'.value? n with
      | none => rfl
      | some v =>
          obtain ⟨d, hd⟩ := h.exists_definition hv hbefore
          refine absurd (hlate.defined _ d hd ?_) hn
          rw [Scope.binds_lower, Scope.binds, hbefore]
          rfl

/-- A definition is evaluated alike wherever the names that it mentions have the same values, and draws
nothing. -/
theorem eval_eq_of_resolved (h : r.ShareBuiltIns s) (hread : AreRead definitions r late)
    (hlate : AreLate definitions r s late) (hd : definitions.find? key = some d) (ht : d.tree = some t)
    (hgrown : Grown (IsNew definitions s.child) s.child s') {w : String → Value}
    (hw : ∀ n ∈ d.dependsOn, s'.value? n = some (w n)) :
    s'.eval t = (s.child.bindAll (d.dependsOn.map fun n => (n, w n))).eval t ∧
      Action.DrawsNothing (s'.eval t) := by
  have hbinds (n : String) (hn : Text.lower n ∉ late) : s'.binds n = r.binds n := hlate.binds_eq hgrown hn
  have hleft : r.Extends late s' := h.extends_of_functions hgrown.functions hbinds
  have horderly := hread.isOrderly key d t hd ht
  refine ⟨hleft.eval_eq_bindAll hgrown.functions (fun n hn => ?_) horderly (hread.dependsOn key d t hd ht)
    (hread.isKey key d hd) hw, hleft.drawsNothing_eval (fun name => h.makesChoices hgrown.functions) horderly⟩
  -- a name that is not late has its value from the start
  cases hbefore : s.child.value? n with
  | some v => exact hgrown.kept n v hbefore
  | none =>
      refine Scope.value?_eq_none ?_
      rw [hbinds n hn, not_not.1 fun hne => hn (hlate.differing n hne), Scope.binds, ← Scope.value?_child,
        hbefore]
      rfl

/-- **Step.** A definition that is evaluated gives what its variable comes to. -/
theorem closedUnder_resolves (h : r.ShareBuiltIns s) (hread : AreRead definitions r late)
    (hlate : AreLate definitions r s late) :
    ClosedUnder definitions s.child (IsNew definitions s.child) := by
  intro key d t s' v draws draws' hd ht hgrown hneeds hrun hunbound
  have hw : ∀ n ∈ d.dependsOn, s'.value? n = some ((s'.value? n).getD (.boolean false)) := by
    intro n hn
    obtain ⟨v, hv⟩ := Option.isSome_iff_exists.1 (hneeds n hn)
    rw [hv]
    rfl
  obtain ⟨heval, result, hquiet⟩ := eval_eq_of_resolved h hread hlate hd ht hgrown hw
  rw [hquiet] at hrun
  cases hrun
  refine .computed hunbound hd ht (fun n hn => ?_) fun draws => by rw [← heval, hquiet]
  have hresolves := hgrown.resolves (hw n hn)
  rwa [hread.isKey key d hd n hn] at hresolves

/-- The definition of a variable without a value before has in the end the value that the variable has. -/
theorem exists_eval_of_resolved (h : r.ShareBuiltIns s) (hread : AreRead definitions r late)
    (hlate : AreLate definitions r s late) (hgrown : Grown (IsNew definitions s.child) s.child s')
    (hkey : Text.lower key = key) (hunbound : s.value? key = none) (hv : s'.value? key = some v)
    (hbinds : ∀ n ∈ definitions.keys, s'.binds n = true) :
    ∃ d t, definitions.find? key = some d ∧ d.tree = some t ∧
      ∀ draws, (s'.eval t).runFrom draws = (.ok v, draws) := by
  have hresolves := hgrown.resolves hv
  rw [hkey] at hresolves
  cases hresolves with
  | bound hold => cases hunbound.symm.trans hold
  | @computed _ d t w _ _ hd ht hneeds hvalue =>
      refine ⟨d, t, hd, ht, fun draws => ?_⟩
      have hw : ∀ n ∈ d.dependsOn, s'.value? n = some (w n) := by
        intro n hn
        have hbound : s'.binds n = true := by
          cases hneeds n hn with
          | bound hold => exact Option.isSome_iff_exists.2 ⟨_, hgrown.kept n _ hold⟩
          | computed _ hd' => exact hbinds n (Table.mem_keys.2 ⟨_, hd'⟩)
        obtain ⟨u, hu⟩ := Option.isSome_iff_exists.1 hbound
        have hcomes := hgrown.resolves hu
        rw [hread.isKey key d hd n hn] at hcomes
        rw [hu, hcomes.unique (hneeds n hn)]
      rw [(eval_eq_of_resolved h hread hlate hd ht hgrown hw).1, hvalue]

/-! ### Definitions in source text -/

variable {read : String → Outcome (Option Tree)} {sources : List (String × Option String)}

/-- What is found under a key has been there or is the definition of a source with this key. -/
theorem exists_source_of_foldlM_enter {table₀ : Table Definition}
    (h : sources.foldlM (enter read) table₀ = .ok definitions) (hd : definitions.find? key = some d) :
    table₀.find? key = some d ∨ ∃ e ∈ sources, keyOf e.1 = key ∧ ofSource read e.2 = .ok d := by
  induction sources generalizing table₀ with
  | nil =>
      cases h
      exact .inl hd
  | cons e rest ih =>
      rw [List.foldlM_cons] at h
      obtain ⟨table₁, henter, hrest⟩ := exists_of_bind_eq_ok h
      obtain ⟨-, d', hd', rfl⟩ := enter_eq_ok.1 henter
      rcases ih hrest with hfirst | ⟨e', he', hsource⟩
      · rw [Table.find?_insert] at hfirst
        split at hfirst
        · cases hfirst
          exact .inr ⟨e, List.mem_cons_self, Eq.symm ‹_›, hd'⟩
        · exact .inl hfirst
      · exact .inr ⟨e', List.mem_cons_of_mem e he', hsource⟩

theorem exists_source_of_table (h : table read sources = .ok definitions)
    (hd : definitions.find? key = some d) :
    ∃ e ∈ sources, keyOf e.1 = key ∧ ofSource read e.2 = .ok d :=
  (exists_source_of_foldlM_enter h hd).resolve_left nofun

theorem lower_of_mem_keys (h : table read sources = .ok definitions) (hkey : key ∈ definitions.keys) :
    Text.lower key = key := by
  obtain ⟨d, hd⟩ := Table.mem_keys.1 hkey
  obtain ⟨e, -, rfl, -⟩ := exists_source_of_table h hd
  exact Text.lower_lower _

/-- If definitions are read in the scope in which they are computed, no names are late but their own. -/
theorem areLate_keys (h : table s.tree sources = .ok definitions) :
    AreLate definitions s s (sources.map fun e => keyOf e.1) where
  differing n hne := absurd rfl hne
  defined k d hd _ := by
    obtain ⟨e, he, hkey, -⟩ := exists_source_of_table h hd
    exact List.mem_map.2 ⟨e, he, hkey⟩

/-- Definitions in source text come with the names that they mention. -/
theorem areRead_table (h : table r.tree sources = .ok definitions)
    (horderly : ∀ e ∈ sources, ∀ text t, e.2 = some text → r.tree text = .ok (some t) →
      t.IsOrderly r late []) : AreRead definitions r late where
  isOrderly k d t hd ht := by
    obtain ⟨e, he, -, hsource⟩ := exists_source_of_table h hd
    obtain ⟨text, htext, hread⟩ := (of_ofSource hsource).2 t ht
    exact horderly e he text t htext hread
  dependsOn k d t hd ht := by
    obtain ⟨e, -, -, hsource⟩ := exists_source_of_table h hd
    have hnames := (of_ofSource hsource).1
    rwa [ht] at hnames
  isKey k d hd := by
    have hmap := isKey_of_table h hd
    exact fun n hn => List.map_inj_left.1 (hmap.trans (List.map_id _).symm) n hn

end Definition

namespace VariableSet

open Definition

variable {r s : Scope} {late : List String} {definitions : Table Definition}
  {sources : List (String × Option String)} {condition : Option Condition} {draws draws' : Draws}
  {set : VariableSet}

/-! ### Sets that are made -/

/-- Whatever the condition is, the set holds the variables of its scope. -/
theorem returns_conclude_ofScope (definitions : Table Definition) (condition : Option Condition) (s : Scope) :
    (conclude definitions condition s).Returns fun set =>
      set.scope = s ∧ set.values = (ofScope definitions s).values := by
  cases condition with
  | none => exact Action.returns_pure ⟨rfl, rfl⟩
  | some c => exact Action.returns_bind (Action.returns_true _) fun b _ => Action.returns_pure ⟨rfl, rfl⟩

/-- A set that is made holds the variables of a scope in which all definitions have been computed. -/
theorem runFrom_computeAll_of_make (h : (make s definitions condition).runFrom draws = (.ok set, draws')) :
    ((computeAll definitions).runFrom s.child draws).1 = (.ok (), set.scope) ∧
      set.values = (ofScope definitions set.scope).values := by
  rw [runFrom_make_conclude] at h
  rcases hrun : (computeAll definitions).runFrom s.child draws with ⟨⟨a, s'⟩, d'⟩
  rw [hrun] at h
  cases a with
  | error e => cases h
  | ok u =>
      obtain ⟨hscope, hvalues⟩ := returns_conclude_ofScope definitions condition s' d' set draws' h
      rw [hscope]
      exact ⟨rfl, hvalues⟩

/-- In the scope of the set, the definition of a variable has the value of the variable. -/
def Solves (set : VariableSet) (definitions : Table Definition) (name : String) : Prop :=
  ∃ d t v, definitions.find? name = some d ∧ d.tree = some t ∧ set.values.find? name = some v ∧
    ∀ draws, ((set.scope.eval t).runFrom draws).1 = .ok v

/-- **The variables solve their definitions.** -/
theorem make_solves_definitions (h : r.ShareBuiltIns s)
    (hread : Definition.table r.tree sources = .ok definitions) (hlate : AreLate definitions r s late)
    (horderly : ∀ e ∈ sources, ∀ text t, e.2 = some text → r.tree text = .ok (some t) →
      t.IsOrderly r late [])
    (hmake : (make s definitions condition).runFrom draws = (.ok set, draws')) :
    ∀ name ∈ definitions.keys, s.binds name = false → set.Solves definitions name := by
  intro name hname hunbound
  obtain ⟨hrun, hvalues⟩ := runFrom_computeAll_of_make hmake
  have hareRead := areRead_table hread horderly
  have hensures := ensures_computeAll_grown (closedUnder_resolves h hareRead hlate) s.child draws (.refl _ _)
  rw [hrun] at hensures
  obtain ⟨hgrown, hbinds⟩ := hensures
  obtain ⟨v, hv⟩ := Option.isSome_iff_exists.1 (hbinds rfl name hname)
  obtain ⟨d, t, hd, ht, heval⟩ := exists_eval_of_resolved h hareRead hlate hgrown
    (lower_of_mem_keys hread hname) (Scope.value?_eq_none hunbound) hv (hbinds rfl)
  refine ⟨d, t, v, hd, ht, ?_, fun draws => by rw [heval]⟩
  rw [hvalues]
  show (Table.ofList _).find? name = some v
  rw [Table.find?_ofList_filterMap, if_pos hname, hv]

/-- The kinds of a variable and of its definition in the end, nothing for the second if the definition has no
value then. -/
def kindsInTheEnd? (s : Scope) (sources : List (String × Option String)) (name : String) :
    Option (Option String × Option String) := do
  let definitions ← (Definition.table s.tree sources).toOption
  let set ← ((make s definitions none).runFrom .default).1.toOption
  let t ← (← definitions.find? name).tree
  return ((set.values.find? name).map Value.kind,
    ((set.scope.eval t).runFrom .default).1.toOption.map Value.kind)

theorem exists_of_kindsInTheEnd? {name : String} {kinds : Option String × Option String}
    (h : kindsInTheEnd? s sources name = some kinds) :
    ∃ definitions set draws' d t, Definition.table s.tree sources = .ok definitions ∧
      (make s definitions none).runFrom .default = (.ok set, draws') ∧
      definitions.find? name = some d ∧ d.tree = some t ∧
      kinds = ((set.values.find? name).map Value.kind,
        ((set.scope.eval t).runFrom .default).1.toOption.map Value.kind) := by
  unfold kindsInTheEnd? at h
  cases hread : Definition.table s.tree sources with
  | error e =>
      rw [hread] at h
      cases h
  | ok definitions =>
      rw [hread] at h
      rcases hmake : (make s definitions none).runFrom .default with ⟨_ | set, draws'⟩
      · simp [hmake, Except.toOption] at h
      · simp only [hmake, Except.toOption, Option.bind_eq_bind, Option.bind_some, Option.bind_eq_some_iff] at h
        obtain ⟨d, hd, t, ht, hkinds⟩ := h
        cases hkinds
        exact ⟨definitions, set, draws', d, t, rfl, hmake, hd, ht, rfl⟩

/-- A loop over a list with a variable in it that is computed later, and a definition that is not needed
because the variable has a value already. -/
theorem make_solves_definitions_loop :
    let s := Library.scope.bind "b" (.list [])
    ∃ definitions set draws', Definition.table s.tree
        [("a", some "map(x, x, [b, c])"), ("b", some "true"), ("c", some "b")] = .ok definitions ∧
      (make s definitions none).runFrom .default = (.ok set, draws') ∧ set.Solves definitions "a" := by
  intro s
  have hkinds : kindsInTheEnd? s [("a", some "map(x, x, [b, c])"), ("b", some "true"), ("c", some "b")] "a" =
      some (some "list", some "list") := by
    unfold s
    rw [Library.scope_eq]
    decide +kernel
  have hplain : [some "map(x, x, [b, c])", some "true", some "b"].all (fun source =>
      source.all fun text => (s.tree text).toOption.join.all (Tree.isPlain (· == "map"))) = true := by
    unfold s
    rw [Library.scope_eq]
    decide +kernel
  obtain ⟨definitions, set, draws', d, -, hread, hmake, hd, -⟩ := exists_of_kindsInTheEnd? hkinds
  have hshare : s.ShareBuiltIns s := ⟨fun _ => rfl, Scope.holdsBuiltIns_scope.eachSignature.bind _ _⟩
  have hchoices : ∀ name, (name == "map") = true → ¬s.MakesChoices name := by
    have hbind (s₀ : Scope) (v : Value) : (s₀.bind "b" v).MakesChoices "map" → s₀.MakesChoices "map" := id
    intro name hname
    rw [eq_of_beq hname]
    exact fun h => Library.not_makesChoices (by decide +kernel) (hbind _ _ h)
  refine ⟨definitions, set, draws', hread, hmake, make_solves_definitions hshare hread
    (areLate_keys hread) ?_ hmake "a" (Table.mem_keys.2 ⟨d, hd⟩) (by decide +kernel)⟩
  intro e he text t htext htree
  have hsource := List.all_eq_true.1 hplain e.2 (List.mem_map_of_mem (f := Prod.snd) he)
  rw [htext, Option.all_some, htree] at hsource
  exact Tree.isOrderly_of_isPlain hchoices hsource

/-! ### Where a definition is not solved -/

/-- The variables solve their definitions, also those that had a value before. -/
def SolvesAll (s : Scope) (sources : List (String × Option String)) : Prop :=
  ∀ definitions draws set, Definition.table s.tree sources = .ok definitions →
    ((make s definitions none).runFrom draws).1 = .ok set →
      ∀ name ∈ definitions.keys, set.Solves definitions name

theorem SolvesAll.kinds_eq (h : SolvesAll s sources) {name : String} {kinds : Option String × Option String}
    (hkinds : kindsInTheEnd? s sources name = some kinds) : kinds.1 = kinds.2 := by
  obtain ⟨definitions, set, draws', d, t, hread, hmake, hd, ht, rfl⟩ := exists_of_kindsInTheEnd? hkinds
  obtain ⟨d', t', v, hd', ht', hv, heval⟩ :=
    h definitions .default set hread (by rw [hmake]) name (Table.mem_keys.2 ⟨d, hd⟩)
  cases hd.symm.trans hd'
  cases ht.symm.trans ht'
  rw [hv, heval .default]
  rfl

set_option maxRecDepth 10000 in
/-- In these cases a definition is not solved: the variable had a value before, a variable is applied in a
slot of a text, and a definition in `satisfy` uses a name that is bound after it. -/
theorem not_solvesAll :
    (¬SolvesAll (Library.scope.bind "a" (.list [])) [("a", some "true")]) ∧
    (¬SolvesAll Library.scope
      [("a", some "\"\x7bif(true,true,b(1,2))\x7d\""), ("b", some "true")]) ∧
    ¬SolvesAll Library.scope
      [("a", some "satisfy([x],[if(x isa 'name',true,f())],[true])"), ("x", some "true")] := by
  have hkinds :
      (kindsInTheEnd? (Library.scope.bind "a" (.list [])) [("a", some "true")] "a" =
        some (some "list", some "boolean")) ∧
      (kindsInTheEnd? Library.scope
        [("a", some "\"\x7bif(true,true,b(1,2))\x7d\""), ("b", some "true")] "a" =
          some (some "string", none)) ∧
      kindsInTheEnd? Library.scope
        [("a", some "satisfy([x],[if(x isa 'name',true,f())],[true])"), ("x", some "true")] "a" =
          some (some "list", none) := by
    rw [Library.scope_eq]
    decide +kernel
  obtain ⟨hbefore, hslot, hsatisfy⟩ := hkinds
  refine ⟨fun h => ?_, fun h => ?_, fun h => ?_⟩
  · exact absurd (h.kinds_eq hbefore) (by decide)
  · exact absurd (h.kinds_eq hslot) (by decide)
  · exact absurd (h.kinds_eq hsatisfy) (by decide)

end VariableSet

end MathExpr
