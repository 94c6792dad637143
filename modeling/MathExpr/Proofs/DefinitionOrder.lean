import MathExpr.Proofs.Agreement
import MathExpr.Proofs.Dependencies
import MathExpr.Proofs.FunctionNames
import MathExpr.Variables

/-!
# The order of definitions

Definitions may be listed in any order: the variables get the same values, or the
computation fails for each order.

The value of a definition is described without an order (`Definition.Computes`): it is the
value of its tree where the definitions that it needs have theirs. There is only one such
value (`Computes.unique`), what is computed has it (`closedUnder_computes`), and the
computation of a definition that has a value succeeds (`Computes.succeeds`).
-/

namespace MathExpr

namespace Definition

/-- The value of a definition: that of its tree where the definitions that it needs have their
values, and nothing else is bound. -/
inductive Computes (definitions : Table Definition) (s₀ : Scope) : String → Value → Prop
  | intro {key : String} {d : Definition} {t : Tree} {w : String → Value} {v : Value}
      (hd : definitions.find? key = some d) (ht : d.tree = some t)
      (hneeds : ∀ n ∈ d.dependsOn, Computes definitions s₀ n (w n))
      (hv : ∀ draws, ((s₀.bindAll (d.dependsOn.map fun n => (n, w n))).eval t).runFrom draws =
        (.ok v, draws)) :
      Computes definitions s₀ key v

variable {definitions definitions' : Table Definition} {s s₀ : Scope} {key : String} {v v' : Value}

theorem Computes.unique (h : Computes definitions s₀ key v) (h' : Computes definitions s₀ key v') :
    v = v' := by
  induction h generalizing v' with
  | @intro key d t w v hd ht _ hv ih =>
      cases h' with
      | intro hd' ht' hneeds' hv' =>
          rename_i w'
          cases hd.symm.trans hd'
          cases ht.symm.trans ht'
          have hbindings : d.dependsOn.map (fun n => (n, w n)) = d.dependsOn.map fun n => (n, w' n) :=
            List.map_congr_left fun n hn => by rw [ih n hn (hneeds' n hn)]
          have hrun := hv .default
          rw [hbindings, hv' .default] at hrun
          cases hrun
          rfl

/-- Only what is found under a key counts. -/
theorem Computes.of_find?_eq (hfind : ∀ k, definitions.find? k = definitions'.find? k)
    (h : Computes definitions s₀ key v) : Computes definitions' s₀ key v := by
  induction h with
  | intro hd ht _ hv ih => exact .intro ((hfind _).symm.trans hd) ht ih hv

theorem Computes.isSome_find? (h : Computes definitions s₀ key v) :
    ∃ d, definitions.find? key = some d := by
  cases h with
  | intro hd => exact ⟨_, hd⟩

/-- A definition that has a value is grounded. -/
theorem Computes.grounded
    (hkeys : ∀ k d, definitions.find? k = some d → ∀ n ∈ d.dependsOn, Text.lower n = n)
    (h : Computes definitions s₀ key v) : Grounded definitions s₀ key := by
  induction h with
  | intro hd ht _ _ ih =>
      refine .intro hd ht fun n hn => ?_
      obtain ⟨⟨d', hd', hmem⟩, -⟩ := hn
      cases hd.symm.trans hd'
      obtain ⟨m, hm, rfl⟩ := List.mem_map.1 hmem
      rw [hkeys _ _ hd m hm]
      exact ih m hm

/-! ### Values that are computed -/

/-- Definitions of some variables, whose trees are orderly and come with the names that occur free in
them. -/
structure AreOrderly (definitions : Table Definition) (s : Scope) (defined : List String) : Prop where
  mem : ∀ k d, definitions.find? k = some d → k ∈ defined
  lower : ∀ k d, definitions.find? k = some d → Text.lower k = k
  isOrderly : ∀ k d t, definitions.find? k = some d → d.tree = some t → t.IsOrderly s defined []
  dependsOn : ∀ k d t, definitions.find? k = some d → d.tree = some t →
    FreeNames.ofTree s.tree [] t = .ok d.dependsOn
  isKey : ∀ k d, definitions.find? k = some d → ∀ n ∈ d.dependsOn, Text.lower n = n

variable {defined : List String} {d : Definition} {t : Tree}

/-- A scope in which values have been computed has values only for defined names. -/
theorem Grown.extends (hs : s.HoldsBuiltIns) (horderly : AreOrderly definitions s defined) {s' : Scope}
    (h : Grown (Computes definitions s.child) s.child s') : s.Extends defined s' := by
  refine hs.extends_of_functions h.functions fun n hn => ?_
  obtain ⟨v, hv⟩ := Option.isSome_iff_exists.1 hn
  rcases h.new n v hv with hold | hnew
  · rw [Scope.value?_child, hs.value?_eq_none] at hold
    cases hold
  · obtain ⟨d, hd⟩ := hnew.isSome_find?
    exact horderly.mem _ d hd

/-- A definition is evaluated alike wherever the definitions that it needs have their values, and draws
nothing. -/
theorem eval_eq_of_grown (hs : s.HoldsBuiltIns) (horderly : AreOrderly definitions s defined)
    (hd : definitions.find? key = some d) (ht : d.tree = some t) {s' : Scope}
    (h : Grown (Computes definitions s.child) s.child s') {w : String → Value}
    (hw : ∀ n ∈ d.dependsOn, s'.value? n = some (w n)) :
    s'.eval t = (s.child.bindAll (d.dependsOn.map fun n => (n, w n))).eval t ∧
      Action.DrawsNothing (s'.eval t) := by
  have hleft : s.Extends defined s' := h.extends hs horderly
  have horder := horderly.isOrderly key d t hd ht
  refine ⟨hleft.eval_eq_bindAll h.functions (fun n hn => ?_) horder (horderly.dependsOn key d t hd ht)
    (horderly.isKey key d hd) hw, hleft.drawsNothing_eval (fun _ => Scope.makesChoices_of_functions h.functions)
    horder⟩
  -- a name that is not defined has no value at all
  rw [Scope.value?_child, hs.value?_eq_none]
  cases hv : s'.value? n with
  | none => rfl
  | some v => exact absurd (hs.mem_of_binds hleft (Option.isSome_iff_exists.2 ⟨v, hv⟩)) hn

/-- What has been computed is the value of the definition. -/
theorem closedUnder_computes (hs : s.HoldsBuiltIns) (horderly : AreOrderly definitions s defined) :
    ClosedUnder definitions s.child (Computes definitions s.child) := by
  intro key d t s' v draws draws' hd ht hgrown hneeds hrun
  have hcomputed : ∀ n ∈ d.dependsOn, ∃ v, s'.value? n = some v ∧ Computes definitions s.child n v := by
    intro n hn
    obtain ⟨v, hv⟩ := Option.isSome_iff_exists.1 (hneeds n hn)
    refine ⟨v, hv, ?_⟩
    rcases hgrown.new n v hv with hold | hnew
    · rw [Scope.value?_child, hs.value?_eq_none] at hold
      cases hold
    · rwa [horderly.isKey key d hd n hn] at hnew
  have hw : ∀ n ∈ d.dependsOn, s'.value? n = some ((s'.value? n).getD (.boolean false)) := by
    intro n hn
    obtain ⟨v, hv, -⟩ := hcomputed n hn
    rw [hv]
    rfl
  obtain ⟨heval, r, hquiet⟩ := eval_eq_of_grown hs horderly hd ht hgrown hw
  rw [hquiet] at hrun
  cases hrun
  refine .intro hd ht (fun n hn => ?_) fun draws => by rw [← heval, hquiet]
  obtain ⟨v, hv, hcomputes⟩ := hcomputed n hn
  rw [hv]
  exact hcomputes

/-! ### Computations that succeed -/

open Resolving

theorem succeeds_resolve {Q : String → Value → Prop} {recurse : String → Resolving Value} {n : String}
    (h : Succeeds (Grown Q s₀) (recurse n) fun _ => Grown Q s₀) :
    Succeeds (Grown Q s₀) (resolve recurse n) fun _ => Grown Q s₀ := by
  refine succeeds_value?_bind fun s hs => ?_
  cases s.value? n with
  | some v =>
      refine succeeds_pure ?_
      rintro _ rfl
      exact hs
  | none =>
      refine succeeds_bind (Q := fun _ => Grown Q s₀) ?_ fun _ => succeeds_pure fun _ hs => hs
      rintro _ draws rfl
      exact succeeds_withError h _ draws hs

/-- A definition that has a value is evaluated where the definitions that it needs have theirs. -/
theorem succeeds_evaluate (hs : s.HoldsBuiltIns) (horderly : AreOrderly definitions s defined)
    (hd : definitions.find? key = some d) (ht : d.tree = some t)
    (h : Computes definitions s.child key v) :
    Succeeds (fun s' => Grown (Computes definitions s.child) s.child s' ∧
        ∀ n ∈ d.dependsOn, s'.binds n = true) (evaluate key t) fun _ _ => True := by
  refine succeeds_get_bind fun s' ⟨hgrown, hbinds⟩ => ?_
  obtain ⟨hd', ht', hneeds, hv⟩ := h
  rename_i w
  cases hd.symm.trans hd'
  cases ht.symm.trans ht'
  have hw : ∀ n ∈ d.dependsOn, s'.value? n = some (w n) := by
    intro n hn
    obtain ⟨u, hu⟩ := Option.isSome_iff_exists.1 (hbinds n hn)
    rcases hgrown.new n u hu with hold | hnew
    · rw [Scope.value?_child, hs.value?_eq_none] at hold
      cases hold
    · rw [horderly.isKey key d hd n hn] at hnew
      rw [hu, hnew.unique (hneeds n hn)]
  have hvalue : Succeeds (· = s') (withError (.inDefinition key ·) (ofAction (s'.eval t)))
      fun _ => (· = s') := by
    refine succeeds_withError (succeeds_ofAction (a := v) ?_ fun _ hs => hs)
    rintro _ rfl draws
    rw [(eval_eq_of_grown hs horderly hd ht hgrown hw).1, hv]
  refine succeeds_bind hvalue fun v => succeeds_bind (Q := fun _ _ => True) ?_ fun _ =>
    succeeds_pure fun _ _ => trivial
  refine succeeds_change ?_ fun _ _ => trivial
  rintro _ rfl
  exact hgrown.frozen

/-- The computation of a definition that has a value succeeds, if none of the variables that wait for it
is needed. -/
theorem Computes.succeeds (hs : s.HoldsBuiltIns) (horderly : AreOrderly definitions s defined)
    (h : Computes definitions s.child key v) {name : String} (hname : Text.lower name = key)
    {path : List String}
    (hpath : ∀ p ∈ path, ¬Relation.ReflTransGen (Needs definitions s.child) key p) :
    Succeeds (Grown (Computes definitions s.child) s.child) (compute definitions path name) fun _ =>
      Grown (Computes definitions s.child) s.child := by
  have hclosed := closedUnder_computes hs horderly
  induction h generalizing name path with
  | @intro key d t w v hd ht hneeds hv ih =>
      have hvalue : Computes definitions s.child key v := .intro hd ht hneeds hv
      rw [compute_eq]
      refine succeeds_value?_bind fun s' hgrown => ?_
      rw [hname]
      cases hbound : s'.value? key with
      | some u =>
          refine succeeds_pure ?_
          rintro _ rfl
          exact hgrown
      | none =>
          have hnotMem : path.contains key = false := by
            rw [← Bool.not_eq_true, List.contains_iff_mem]
            exact fun hmem => hpath key hmem .refl
          dsimp only
          rw [hnotMem, if_neg Bool.false_ne_true, hd]
          -- a definition that is needed does not need one that waits for it
          have hneeded : ∀ n ∈ d.dependsOn, Succeeds (Grown (Computes definitions s.child) s.child)
              (compute definitions (key :: path) n) fun _ => Grown (Computes definitions s.child) s.child := by
            intro n hn
            have hedge : Needs definitions s.child key n := by
              refine ⟨⟨d, hd, List.mem_map.2 ⟨n, hn, horderly.isKey key d hd n hn⟩⟩, ?_⟩
              rw [Scope.binds, Scope.value?_child, hs.value?_eq_none]
              rfl
            refine ih n hn (horderly.isKey key d hd n hn) fun p hp hreach => ?_
            rcases List.mem_cons.1 hp with rfl | hp
            · exact (hvalue.grounded horderly.isKey).acyclic (.head' hedge hreach)
            · exact hpath p hp (.head hedge hreach)
          have hresolved := (succeeds_forM fun n hn => succeeds_resolve (hneeded n hn)).and_ensures
            (ensures_forM_names hclosed
              (fun Q s₀ hclosed n => ensures_resolve (ensures_computeWith hclosed _ _ n)) d.dependsOn)
          have hkey : Text.lower key = key := by rw [← hname, Text.lower_lower]
          have hevaluated := (succeeds_evaluate hs horderly hd ht hvalue).and_ensures
            (ensures_evaluate hclosed hd ht hkey (hs.value?_eq_none key))
          rintro _ draws rfl
          refine succeeds_bind hresolved (fun _ s' draws hs' => ?_) _ draws hgrown
          rw [ht]
          obtain ⟨u, s'', hrun, -, hgrown, -⟩ := hevaluated s' draws ⟨hs'.2.1, hs'.2.2 rfl⟩
          exact ⟨u, s'', hrun, hgrown⟩

/-! ### Definitions in source text -/

variable {read : String → Outcome (Option Tree)} {sources : List (String × Option String)}

/-- The key under which the definition of a named variable is kept. -/
def keyOf (name : String) : String := Text.lower (Text.strip name)

/-- The table with one more definition. -/
def enter (read : String → Outcome (Option Tree)) (t : Table Definition)
    (e : String × Option String) : Outcome (Table Definition) := do
  if (Text.strip e.1).isEmpty then .error (.error .emptyName)
  else return t.insert (keyOf e.1) (← ofSource read e.2)

theorem table_eq (read : String → Outcome (Option Tree)) (sources : List (String × Option String)) :
    table read sources = sources.foldlM (enter read) .empty := rfl

/-- What can be entered does not depend on what has been entered. -/
theorem enter_eq_ok {t t' : Table Definition} {e : String × Option String} :
    enter read t e = .ok t' ↔ (Text.strip e.1).isEmpty = false ∧
      ∃ d, ofSource read e.2 = .ok d ∧ t' = t.insert (keyOf e.1) d := by
  unfold enter
  cases (Text.strip e.1).isEmpty with
  | true =>
      refine ⟨fun h => ?_, fun h => ?_⟩
      · cases h
      · cases h.1
  | false =>
      rw [if_neg Bool.false_ne_true]
      refine ⟨fun h => ?_, ?_⟩
      · obtain ⟨d, hd, hinsert⟩ := exists_of_bind_eq_ok h
        cases hinsert
        exact ⟨rfl, d, hd, rfl⟩
      · rintro ⟨-, d, hd, rfl⟩
        rw [hd]
        rfl

/-- There is a table of definitions if each can be read. -/
theorem exists_table_iff : (∃ ds, table read sources = .ok ds) ↔
    ∀ e ∈ sources, (Text.strip e.1).isEmpty = false ∧ ∃ d, ofSource read e.2 = .ok d := by
  rw [table_eq]
  generalize Table.empty = t
  induction sources generalizing t with
  | nil => simp [pure, Except.pure]
  | cons e rest ih =>
      rw [List.forall_mem_cons, List.foldlM_cons]
      constructor
      · rintro ⟨ds, hds⟩
        obtain ⟨t', ht', hrest⟩ := exists_of_bind_eq_ok hds
        obtain ⟨hname, d, hd, -⟩ := enter_eq_ok.1 ht'
        exact ⟨⟨hname, d, hd⟩, (ih t').1 ⟨ds, hrest⟩⟩
      · rintro ⟨⟨hname, d, hd⟩, hrest⟩
        have hfirst := (enter_eq_ok (t := t)).2 ⟨hname, d, hd, rfl⟩
        obtain ⟨ds, hds⟩ := (ih (t.insert (keyOf e.1) d)).2 hrest
        exact ⟨ds, by rw [hfirst]; exact hds⟩

theorem find?_foldlM_enter {t : Table Definition} (h : sources.foldlM (enter read) t = .ok definitions)
    (hdistinct : sources.Pairwise fun e e' => keyOf e.1 ≠ keyOf e'.1)
    (hfresh : ∀ e ∈ sources, t.find? (keyOf e.1) = none) (k : String) (d : Definition) :
    definitions.find? k = some d ↔
      t.find? k = some d ∨ ∃ e ∈ sources, keyOf e.1 = k ∧ ofSource read e.2 = .ok d := by
  induction sources generalizing t with
  | nil =>
      cases h
      simp
  | cons e rest ih =>
      rw [List.foldlM_cons] at h
      obtain ⟨t', ht', hrest⟩ := exists_of_bind_eq_ok h
      obtain ⟨-, d', hd', rfl⟩ := enter_eq_ok.1 ht'
      obtain ⟨hfirst, hdistinct⟩ := List.pairwise_cons.1 hdistinct
      rw [ih hrest hdistinct fun e' he' => ?_, Table.find?_insert]
      · simp only [List.mem_cons, exists_eq_or_imp, hd', Except.ok.injEq]
        by_cases hk : k = keyOf e.1
        · simp [hk, hfresh e List.mem_cons_self]
        · simp [hk, Ne.symm hk]
      · rw [Table.find?_insert, if_neg (Ne.symm (hfirst e' he'))]
        exact hfresh e' (List.mem_cons_of_mem e he')

/-- A definition is found under its key, if no other has the same. -/
theorem find?_table (h : table read sources = .ok definitions)
    (hdistinct : sources.Pairwise fun e e' => keyOf e.1 ≠ keyOf e'.1) (k : String) (d : Definition) :
    definitions.find? k = some d ↔ ∃ e ∈ sources, keyOf e.1 = k ∧ ofSource read e.2 = .ok d := by
  rw [table_eq] at h
  rw [find?_foldlM_enter h hdistinct (fun _ _ => rfl), Table.find?_empty]
  simp

/-- Definitions in source text are orderly if their trees are. -/
theorem areOrderly_table (h : table s.tree sources = .ok definitions)
    (hdistinct : sources.Pairwise fun e e' => keyOf e.1 ≠ keyOf e'.1)
    (hdefined : ∀ e ∈ sources, keyOf e.1 ∈ defined)
    (horderly : ∀ e ∈ sources, ∀ text t, e.2 = some text → s.tree text = .ok (some t) →
      t.IsOrderly s defined []) : AreOrderly definitions s defined where
  mem k d hd := by
    obtain ⟨e, he, rfl, -⟩ := (find?_table h hdistinct k d).1 hd
    exact hdefined e he
  lower k d hd := by
    obtain ⟨e, -, rfl, -⟩ := (find?_table h hdistinct k d).1 hd
    exact Text.lower_lower _
  isOrderly k d t hd ht := by
    obtain ⟨e, he, rfl, hsource⟩ := (find?_table h hdistinct k d).1 hd
    obtain ⟨text, htext, hread⟩ := (of_ofSource hsource).2 t ht
    exact horderly e he text t htext hread
  dependsOn k d t hd ht := by
    obtain ⟨e, -, -, hsource⟩ := (find?_table h hdistinct k d).1 hd
    have hnames := (of_ofSource hsource).1
    rwa [ht] at hnames
  isKey k d hd := by
    have hmap := isKey_of_table h hd
    exact fun n hn => List.map_inj_left.1 (hmap.trans (List.map_id _).symm) n hn

/-- The variables of all definitions are computed, in order. -/
def computeAll (definitions : Table Definition) : Resolving Unit :=
  definitions.keys.forM fun name => do let _ ← compute definitions [] name

/-- All definitions are computed if each has a value. -/
theorem succeeds_computeAll (hs : s.HoldsBuiltIns) (horderly : AreOrderly definitions s defined)
    (h : ∀ k ∈ definitions.keys, ∃ v, Computes definitions s.child k v) :
    Succeeds (Grown (Computes definitions s.child) s.child) (computeAll definitions) fun _ =>
      Grown (Computes definitions s.child) s.child := by
  unfold computeAll
  refine succeeds_forM fun name hname => ?_
  obtain ⟨v, hv⟩ := h name hname
  obtain ⟨d, hd⟩ := Table.mem_keys.1 hname
  exact succeeds_bind (hv.succeeds hs horderly (horderly.lower name d hd) fun p hp => by cases hp)
    fun _ => succeeds_pure fun _ hs => hs

/-- A computation of all definitions keeps to what holds of their values, and after success each variable has
one. -/
theorem ensures_computeAll_grown {Q : String → Value → Prop} (hclosed : ClosedUnder definitions s₀ Q) :
    Ensures (Grown Q s₀) (computeAll definitions) fun r s =>
      Grown Q s₀ s ∧ (r = .ok () → ∀ k ∈ definitions.keys, s.binds k = true) := by
  refine ensures_forM_names hclosed (fun Q s₀ hclosed n => ?_) definitions.keys
  refine ensures_bind (ensures_computeWith hclosed _ _ n) (fun e s hs => ⟨hs.1, fun hr => by cases hr⟩)
    fun v => ensures_pure fun s hs => ⟨hs.1, fun _ => ?_⟩
  exact Option.isSome_iff_exists.2 ⟨v, hs.2 v rfl⟩

/-- If all definitions are computed, then each has a value, and the scope has it. -/
theorem ensures_computeAll (hs : s.HoldsBuiltIns) (horderly : AreOrderly definitions s defined) :
    Ensures (Grown (Computes definitions s.child) s.child) (computeAll definitions) fun r s' =>
      r = .ok () → ∀ k ∈ definitions.keys,
        ∃ v, Computes definitions s.child k v ∧ s'.value? k = some v := by
  intro s' draws hs'
  obtain ⟨hgrown, hbinds⟩ := ensures_computeAll_grown (closedUnder_computes hs horderly) s' draws hs'
  intro hr k hk
  obtain ⟨v, hv⟩ := Option.isSome_iff_exists.1 (hbinds hr k hk)
  obtain ⟨d, hd⟩ := Table.mem_keys.1 hk
  refine ⟨v, ?_, hv⟩
  rcases hgrown.new k v hv with hold | hnew
  · rw [Scope.value?_child, hs.value?_eq_none] at hold
    cases hold
  · rwa [horderly.lower k d hd] at hnew

end Definition

/-- A name under which no built-in function makes a random choice. -/
theorem Library.not_makesChoices {name : String}
    (h : (Library.signatures.filter fun f => Text.lower name == Text.lower f.name).all
      (fun f => !f.isRandom) = true) : ¬Library.scope.MakesChoices name := by
  rintro ⟨f, hf, hrandom⟩
  rw [Library.signatures_scope] at hf
  have hquiet := List.all_eq_true.1 h f hf
  rw [hrandom] at hquiet
  cases hquiet

namespace VariableSet

open Definition Resolving

variable {s : Scope} {definitions : Table Definition} {defined : List String}

/-- The variables in a scope that has been left by the computation of definitions. -/
def ofScope (definitions : Table Definition) (s : Scope) : VariableSet :=
  ⟨.ofList (definitions.keys.filterMap fun name => (s.value? name).map fun v => (name, v)), true, s⟩

theorem make_eq (s : Scope) (definitions : Table Definition) :
    make s definitions none =
      runIn s.child (computeAll definitions) >>= fun r => pure (ofScope definitions r.2) := rfl

theorem runFrom_make (s : Scope) (definitions : Table Definition) (draws : Draws) :
    ((make s definitions none).runFrom draws).1 =
      ((computeAll definitions).runFrom s.child draws).1.1.map fun _ =>
        ofScope definitions ((computeAll definitions).runFrom s.child draws).1.2 := by
  rw [make_eq, Action.runFrom_bind, runFrom_runIn]
  rcases (computeAll definitions).runFrom s.child draws with ⟨⟨r, s'⟩, d'⟩
  cases r with
  | ok u => rfl
  | error e => rfl

/-- All variables are made if each definition has a value. -/
theorem exists_make_iff (hs : s.HoldsBuiltIns) (horderly : AreOrderly definitions s defined)
    (draws : Draws) : (∃ made, ((make s definitions none).runFrom draws).1 = .ok made) ↔
      ∀ k ∈ definitions.keys, ∃ v, Computes definitions s.child k v := by
  rw [runFrom_make]
  constructor
  · rintro ⟨made, hmade⟩ k hk
    have hensures := ensures_computeAll hs horderly s.child draws (.refl _ _)
    rcases hrun : (computeAll definitions).runFrom s.child draws with ⟨⟨r, s'⟩, d'⟩
    rw [hrun] at hmade hensures
    cases r with
    | error e => cases hmade
    | ok u =>
        obtain ⟨v, hv, -⟩ := hensures rfl k hk
        exact ⟨v, hv⟩
  · intro hall
    obtain ⟨u, s', hrun, -⟩ := succeeds_computeAll hs horderly hall s.child draws (.refl _ _)
    rw [hrun]
    exact ⟨_, rfl⟩

/-- The variables that are made have the values of their definitions. -/
theorem find?_make (hs : s.HoldsBuiltIns) (horderly : AreOrderly definitions s defined)
    {draws : Draws} {made : VariableSet} (h : ((make s definitions none).runFrom draws).1 = .ok made)
    (k : String) (v : Value) : made.values.find? k = some v ↔ Computes definitions s.child k v := by
  rw [runFrom_make] at h
  have hensures := ensures_computeAll hs horderly s.child draws (.refl _ _)
  rcases hrun : (computeAll definitions).runFrom s.child draws with ⟨⟨r, s'⟩, d'⟩
  rw [hrun] at h hensures
  cases r with
  | error e => cases h
  | ok u =>
      cases h
      show (Table.ofList _).find? k = some v ↔ _
      rw [Table.find?_ofList_filterMap]
      constructor
      · intro hv
        split at hv
        · obtain ⟨w, hw, hbound⟩ := hensures rfl k ‹_›
          cases hbound.symm.trans hv
          exact hw
        · cases hv
      · intro hv
        have hk : k ∈ definitions.keys := Table.mem_keys.2 hv.isSome_find?
        obtain ⟨w, hw, hbound⟩ := hensures rfl k hk
        rw [if_pos hk, hbound, hw.unique hv]

/-! ### Variables in two orders -/

/-- The variables with definitions in source text. -/
def ofSources (s : Scope) (sources : List (String × Option String)) : Action VariableSet := do
  make s (← Action.ofOutcome (Definition.table s.tree sources)) none

variable {sources sources' : List (String × Option String)}

theorem exists_table_of_ofSources {draws : Draws} {made : VariableSet}
    (h : ((ofSources s sources).runFrom draws).1 = .ok made) :
    ∃ ds, Definition.table s.tree sources = .ok ds ∧ ((make s ds none).runFrom draws).1 = .ok made := by
  unfold ofSources at h
  cases htable : Definition.table s.tree sources with
  | error e =>
      rw [htable] at h
      cases h
  | ok ds =>
      rw [htable, Action.ofOutcome_ok_bind] at h
      exact ⟨ds, rfl, h⟩

/-- Variables are made alike from two lists of definitions: they have the same values, or in neither
case they are made. -/
def MadeAlike (s : Scope) (sources sources' : List (String × Option String)) (draws draws' : Draws) :
    Prop :=
  (∃ e e', ((ofSources s sources).runFrom draws).1 = .error e ∧
      ((ofSources s sources').runFrom draws').1 = .error e') ∨
    ∃ made made', ((ofSources s sources).runFrom draws).1 = .ok made ∧
      ((ofSources s sources').runFrom draws').1 = .ok made' ∧
        ∀ k, made.values.find? k = made'.values.find? k

/-- If variables can be made in one order, then in another, and with the same values. -/
theorem exists_ofSources_of_perm (hs : s.HoldsBuiltIns) (hperm : sources.Perm sources')
    (hdistinct : sources.Pairwise fun e e' => keyOf e.1 ≠ keyOf e'.1)
    (hdefined : ∀ e ∈ sources, keyOf e.1 ∈ defined)
    (horderly : ∀ e ∈ sources, ∀ text t, e.2 = some text → s.tree text = .ok (some t) →
      t.IsOrderly s defined []) {draws : Draws} (draws' : Draws) {made : VariableSet}
    (h : ((ofSources s sources).runFrom draws).1 = .ok made) :
    ∃ made', ((ofSources s sources').runFrom draws').1 = .ok made' ∧
      ∀ k, made.values.find? k = made'.values.find? k := by
  obtain ⟨ds, hds, hmake⟩ := exists_table_of_ofSources h
  obtain ⟨ds', hds'⟩ : ∃ ds', Definition.table s.tree sources' = .ok ds' := by
    refine exists_table_iff.2 fun e he => ?_
    exact exists_table_iff.1 ⟨ds, hds⟩ e (hperm.mem_iff.2 he)
  have hdistinct' := hperm.pairwise hdistinct fun h => Ne.symm h
  have hfind (k : String) : ds.find? k = ds'.find? k := by
    refine Option.ext fun d => ?_
    rw [find?_table hds hdistinct, find?_table hds' hdistinct']
    simp only [hperm.mem_iff]
  have hvalues := areOrderly_table hds hdistinct hdefined horderly
  have hvalues' := areOrderly_table hds' hdistinct' (fun e he => hdefined e (hperm.mem_iff.2 he))
    fun e he => horderly e (hperm.mem_iff.2 he)
  obtain ⟨made', hmade'⟩ := (exists_make_iff hs hvalues' draws').2 fun k hk => by
    obtain ⟨d, hd⟩ := Table.mem_keys.1 hk
    rw [← hfind] at hd
    obtain ⟨v, hv⟩ := (exists_make_iff hs hvalues draws).1 ⟨made, hmake⟩ k (Table.mem_keys.2 ⟨d, hd⟩)
    exact ⟨v, hv.of_find?_eq hfind⟩
  refine ⟨made', ?_, fun k => Option.ext fun v => ?_⟩
  · unfold ofSources
    rw [hds', Action.ofOutcome_ok_bind]
    exact hmade'
  · rw [find?_make hs hvalues hmake, find?_make hs hvalues' hmade']
    exact ⟨.of_find?_eq hfind, .of_find?_eq fun k => (hfind k).symm⟩

/-- **Definitions may come in any order.** -/
theorem ofSources_of_perm (hs : s.HoldsBuiltIns) (hperm : sources.Perm sources')
    (hdistinct : sources.Pairwise fun e e' => keyOf e.1 ≠ keyOf e'.1)
    (horderly : ∀ e ∈ sources, ∀ text t, e.2 = some text → s.tree text = .ok (some t) →
      t.IsOrderly s (sources.map fun e => keyOf e.1) []) (draws draws' : Draws) :
    MadeAlike s sources sources' draws draws' := by
  have hdefined : ∀ e ∈ sources, keyOf e.1 ∈ sources.map fun e => keyOf e.1 :=
    fun e he => List.mem_map_of_mem he
  cases hrun : ((ofSources s sources).runFrom draws).1 with
  | ok made =>
      obtain ⟨made', hmade', hvalues⟩ :=
        exists_ofSources_of_perm hs hperm hdistinct hdefined horderly draws' hrun
      exact .inr ⟨made, made', hrun, hmade', hvalues⟩
  | error e =>
      cases hrun' : ((ofSources s sources').runFrom draws').1 with
      | error e' => exact .inl ⟨e, e', hrun, hrun'⟩
      | ok made' =>
          obtain ⟨made, hmade, -⟩ := exists_ofSources_of_perm hs hperm.symm
            (hperm.pairwise hdistinct fun h => Ne.symm h) (fun e he => hdefined e (hperm.mem_iff.2 he))
            (fun e he => horderly e (hperm.mem_iff.2 he)) draws hrun'
          rw [hrun] at hmade
          cases hmade

/-- A loop over a list with a variable in it, listed before and after the variable. -/
theorem ofSources_of_perm_loop :
    MadeAlike Library.scope [("a", some "map(x, x, [b])"), ("b", some "true")]
      [("b", some "true"), ("a", some "map(x, x, [b])")] .default .default := by
  refine ofSources_of_perm Scope.holdsBuiltIns_scope (.swap _ _ _) (by decide +kernel) ?_ _ _
  have hloop : Library.scope.tree "map(x, x, [b])" = .ok (some (.node (.call "map")
      [.leaf (.name "x" []), .leaf (.name "x" []), .node .list [.leaf (.name "b" [])]])) := by
    have hts : Token.ofSource (Text.strip "map(x, x, [b])") =
        .ok [.function "map", .mark .openRound, .name "x" [], .mark .comma, .name "x" [],
          .mark .comma, .mark .openSquare, .name "b" [], .mark .closeSquare, .mark .closeRound] := by
      decide +kernel
    rw [Scope.tree_eq_ofTokens hts (by decide +kernel)]
    rfl
  have htrue : Library.scope.tree "true" = .ok (some (.leaf (.boolean true))) := by
    have hts : Token.ofSource (Text.strip "true") = .ok [.boolean true] := by decide +kernel
    rw [Scope.tree_eq_ofTokens hts (by decide +kernel)]
    rfl
  have hleaf {defined around : List String} {n : String} :
      (Tree.leaf (.name n [])).IsOrderly Library.scope defined around :=
    .leaf fun _ _ h => by cases h
  have hchoices : ¬Library.scope.MakesChoices "map" := Library.not_makesChoices (by decide +kernel)
  intro e he text t htext hread
  rcases List.mem_cons.1 he with rfl | he
  · cases htext
    cases hloop.symm.trans hread
    refine .node ?_ ⟨?_, ?_⟩ ?_
    · rintro name ⟨⟩
      exact hchoices
    · rintro _ _ _ - ⟨⟩ hname
      cases hname
    · rintro _ _ _ _ hkey
      exact absurd hkey (by decide +kernel)
    · intro i u hu
      rcases i with _ | _ | _ | i
      · cases hu
        exact hleaf
      · cases hu
        exact hleaf
      · cases hu
        refine .node ?_ ⟨?_, ?_⟩ ?_
        · rintro name ⟨⟩
        · rintro _ _ _ ⟨⟩
        · rintro _ _ _ _ ⟨⟩
        · intro j w hw
          rcases j with _ | j
          · cases hw
            exact hleaf
          · cases hw
      · cases hu
  · cases List.mem_singleton.1 he
    cases htext
    cases htrue.symm.trans hread
    exact .leaf fun _ _ h => by cases h

/-- The kind of the value that a variable gets, nothing if the variables cannot be made. -/
def kindMade? (sources : List (String × Option String)) (name : String) : Option (Option String) :=
  ((ofSources Library.scope sources).runFrom .default).1.toOption.map fun made =>
    (made.values.find? name).map Value.kind

theorem MadeAlike.kindMade?_eq (h : MadeAlike Library.scope sources sources' .default .default)
    (name : String) : kindMade? sources name = kindMade? sources' name := by
  unfold kindMade?
  rcases h with ⟨e, e', he, he'⟩ | ⟨made, made', hmade, hmade', hvalues⟩
  · rw [he, he']
    rfl
  · rw [hmade, hmade']
    exact congrArg (fun v => some (Option.map Value.kind v)) (hvalues name)

set_option maxRecDepth 10000 in
/-- In these cases the order counts: a variable is applied in a slot of a text, a list that is taken
apart has too few parts, a definition in `satisfy` uses a name that is bound after it, and two names
are the same but for case. -/
theorem not_madeAlike :
    (¬MadeAlike Library.scope
      [("a", some "true"), ("b", some "\"\x7bif(true,true,a(1,2))\x7d\"")]
      [("b", some "\"\x7bif(true,true,a(1,2))\x7d\""), ("a", some "true")] .default .default) ∧
    (¬MadeAlike Library.scope
      [("a", some "map(y,[x,y],[[true]])"), ("y", some "true")]
      [("y", some "true"), ("a", some "map(y,[x,y],[[true]])")] .default .default) ∧
    (¬MadeAlike Library.scope
      [("a", some "satisfy([x,y],[y,true],[true])"), ("y", some "true")]
      [("y", some "true"), ("a", some "satisfy([x,y],[y,true],[true])")] .default .default) ∧
    ¬MadeAlike Library.scope [("a", some "true"), ("A", some "[]")]
      [("A", some "[]"), ("a", some "true")] .default .default := by
  have hkinds :
      (kindMade? [("a", some "true"), ("b", some "\"\x7bif(true,true,a(1,2))\x7d\"")] "b" ≠
        kindMade? [("b", some "\"\x7bif(true,true,a(1,2))\x7d\""), ("a", some "true")] "b") ∧
      (kindMade? [("a", some "map(y,[x,y],[[true]])"), ("y", some "true")] "a" ≠
        kindMade? [("y", some "true"), ("a", some "map(y,[x,y],[[true]])")] "a") ∧
      (kindMade? [("a", some "satisfy([x,y],[y,true],[true])"), ("y", some "true")] "a" ≠
        kindMade? [("y", some "true"), ("a", some "satisfy([x,y],[y,true],[true])")] "a") ∧
      kindMade? [("a", some "true"), ("A", some "[]")] "a" ≠
        kindMade? [("A", some "[]"), ("a", some "true")] "a" := by
    unfold kindMade?
    rw [Library.scope_eq]
    decide +kernel
  obtain ⟨hslot, hloop, hsatisfy, hcase⟩ := hkinds
  exact ⟨fun h => hslot (h.kindMade?_eq "b"), fun h => hloop (h.kindMade?_eq "a"),
    fun h => hsatisfy (h.kindMade?_eq "a"), fun h => hcase (h.kindMade?_eq "a")⟩

end VariableSet

end MathExpr
