import MathExpr.Proofs.FreeNames
import MathExpr.Proofs.Resolving
import Mathlib.Data.List.Chain
import Mathlib.Logic.Function.Iterate
import Mathlib.Logic.Relation

/-!
# Resolving dependencies

A variable is computed after the variables that its definition mentions, and these after
those that theirs mention. This ends, and it is exact about cycles
(`Definition.compute_ends_and_finds_cycles`).

* The recursion goes on only with a defined variable that is not on the path, and puts it
  there. So there are at most as many levels as definitions (`remaining_cons_lt`,
  `iterate_computeStep`).
* What is bound in the scope was bound before or has been computed, and what has been
  computed only needs such variables. Whatever property a computed value has because of
  the values that it needs, all new values in the scope have (`ensures_computeWith`); here
  it is that the definitions are `Grounded`.
* Along the path each variable is mentioned by the definition of the next, so that a
  variable that comes again closes a cycle (`isCycle_of_mem`).
-/

namespace MathExpr.Definition

/-! ### One level of the recursion -/

/-- Computes a dependency that has no value yet. -/
def resolve (recurse : String → Resolving Value) (dependency : String) : Resolving PUnit := do
  if (← Resolving.value? dependency).isNone then
    let _ ← Resolving.withError (asDependency dependency) (recurse dependency)

/-- Evaluates a definition and keeps the value. -/
def evaluate (key : String) (t : Tree) : Resolving Value := do
  let v ← Resolving.withError (.inDefinition key ·) (Resolving.ofAction ((← get).eval t))
  Resolving.change fun s => s.bind key v
  return v

/-- Computes what a definition needs, and then its value. -/
def complete (recurse : String → Resolving Value) (key : String) (d : Definition) :
    Resolving Value := do
  d.dependsOn.forM (resolve recurse)
  match d.tree with
  | none => throw (.error (.emptyDefinition key))
  | some t => evaluate key t

/-- One level of the computation of a variable, where `recurse` computes dependencies. -/
def computeStep (definitions : Table Definition)
    (recurse : List String → String → Resolving Value) (path : List String) (name : String) :
    Resolving Value := do
  let key := Text.lower name
  match ← Resolving.value? key with
  | some v => return v
  | none =>
    if path.contains key then throw (.error (circular path key))
    else
      match definitions.find? key with
      | none => throw (.error (.undefinedDefinition key))
      | some d => complete (recurse (key :: path)) key d

variable {definitions : Table Definition} {path : List String} {name key : String} {d : Definition}

theorem computeWith_succ (depth : Nat) :
    computeWith definitions (depth + 1) = computeStep definitions (computeWith definitions depth) :=
  rfl

/-! ### The depth is enough -/

/-- The number of definitions that no variable of a path has. -/
def remaining (definitions : Table Definition) (path : List String) : Nat :=
  definitions.entries.countP fun e => !path.contains e.1

/-- A defined variable that is not on a path yet may be put on it only so often. -/
theorem remaining_cons_lt (hkey : path.contains key = false)
    (hd : definitions.find? key = some d) :
    remaining definitions (key :: path) < remaining definitions path := by
  obtain ⟨entries⟩ := definitions
  obtain ⟨before, after, rfl, -⟩ := List.lookup_eq_some_iff.1 hd
  have hle (es : List (String × Definition)) :
      (es.countP fun e => !(key :: path).contains e.1) ≤ es.countP fun e => !path.contains e.1 := by
    refine List.countP_mono_left fun e _ he => ?_
    simp only [List.contains_cons, Bool.not_or, Bool.and_eq_true] at he
    exact he.2
  unfold remaining
  rw [List.countP_append, List.countP_append, List.countP_cons_of_neg (by simp),
    List.countP_cons_of_pos (by simpa using hkey)]
  have := hle before
  have := hle after
  omega

/-- One level goes on only with defined variables that are not on the path. -/
theorem computeStep_congr {f g : List String → String → Resolving Value}
    (h : ∀ key d, path.contains key = false → definitions.find? key = some d →
      f (key :: path) = g (key :: path)) (name : String) :
    computeStep definitions f path name = computeStep definitions g path name := by
  unfold computeStep
  refine bind_congr fun v => ?_
  cases v with
  | some v => rfl
  | none =>
      dsimp only
      by_cases hkey : path.contains (Text.lower name) = true
      · rw [if_pos hkey, if_pos hkey]
      · rw [if_neg hkey, if_neg hkey]
        cases hd : definitions.find? (Text.lower name) with
        | none => rfl
        | some d =>
            dsimp only
            rw [h _ d (Bool.eq_false_iff.2 hkey) hd]

/-- What stands for the calls below the remaining depth does not matter. -/
theorem iterate_computeStep_congr {n : Nat} (h : remaining definitions path < n)
    (f g : List String → String → Resolving Value) :
    (computeStep definitions)^[n] f path = (computeStep definitions)^[n] g path := by
  induction n generalizing path with
  | zero => exact absurd h (Nat.not_lt_zero _)
  | succ n ih =>
      rw [Function.iterate_succ_apply', Function.iterate_succ_apply']
      refine funext fun name => computeStep_congr (fun key d hkey hd => ih ?_) name
      have := remaining_cons_lt hkey hd
      omega

theorem computeWith_eq_iterate (depth : Nat) :
    computeWith definitions depth = (computeStep definitions)^[depth] (computeWith definitions 0) := by
  induction depth with
  | zero => rfl
  | succ depth ih => rw [computeWith_succ, ih, Function.iterate_succ_apply']

/-- More levels than there are definitions are never reached. -/
theorem iterate_computeStep (f : List String → String → Resolving Value) (path : List String) :
    (computeStep definitions)^[definitions.entries.length + 1] f path = compute definitions path := by
  unfold compute
  rw [computeWith_eq_iterate]
  exact iterate_computeStep_congr (Nat.lt_succ_of_le List.countP_le_length) _ _

/-- The computation of a variable, without a depth. -/
theorem compute_eq (definitions : Table Definition) :
    compute definitions = computeStep definitions (compute definitions) := by
  refine funext fun path => ?_
  rw [← iterate_computeStep (computeStep definitions (compute definitions)),
    ← Function.iterate_succ_apply, Function.iterate_succ_apply']
  refine funext fun name => computeStep_congr (fun key d _ _ => ?_) name
  exact iterate_computeStep _ _

/-! ### What is kept in the scope -/

/-- A scope has the values that another had, and new ones of which something holds. -/
structure Grown (Q : String → Value → Prop) (s₀ s : Scope) : Prop where
  functions : s.functions = s₀.functions
  frozen : s.frozen = s₀.frozen
  kept : ∀ n v, s₀.value? n = some v → s.value? n = some v
  new : ∀ n v, s.value? n = some v → s₀.value? n = some v ∨ Q (Text.lower n) v

/-- What holds of the value of a definition if it holds of the values that this needs. -/
def ClosedUnder (definitions : Table Definition) (s₀ : Scope) (Q : String → Value → Prop) : Prop :=
  ∀ key d t s v draws draws', definitions.find? key = some d → d.tree = some t → Grown Q s₀ s →
    (∀ n ∈ d.dependsOn, s.binds n = true) → (s.eval t).runFrom draws = (.ok v, draws') → Q key v

variable {Q : String → Value → Prop} {s₀ s : Scope}

theorem Grown.refl (Q : String → Value → Prop) (s : Scope) : Grown Q s s :=
  ⟨rfl, rfl, fun _ _ h => h, fun _ _ h => .inl h⟩

theorem Grown.bind (h : Grown Q s₀ s) {v : Value} (hkey : Text.lower key = key)
    (hunbound : s₀.value? key = none) (hv : Q key v) : Grown Q s₀ (s.bind key v) := by
  refine ⟨h.functions, h.frozen, fun n w hw => ?_, fun n w hw => ?_⟩
  · have hn : Text.lower n ≠ key := by
      rintro rfl
      rw [Scope.value?_lower, hw] at hunbound
      cases hunbound
    rw [Scope.value?_bind, hkey, if_neg hn]
    exact h.kept n w hw
  · rw [Scope.value?_bind, hkey] at hw
    by_cases hn : Text.lower n = key
    · rw [if_pos hn] at hw
      cases hw
      rw [hn]
      exact .inr hv
    · rw [if_neg hn] at hw
      exact h.new n w hw

theorem Grown.value?_eq_none (h : Grown Q s₀ s) {n : String} (hn : s.value? n = none) :
    s₀.value? n = none := by
  cases hv : s₀.value? n with
  | none => rfl
  | some v =>
      rw [h.kept n v hv] at hn
      cases hn

open Resolving

/-- The scope is left as `Grown` says, also after a failure, and after success a name has its
value. -/
abbrev Keeps (Q : String → Value → Prop) (s₀ : Scope) (n : String) (r : Except Failure Value)
    (s : Scope) : Prop :=
  Grown Q s₀ s ∧ ∀ v, r = .ok v → s.value? n = some v

theorem Keeps.of_error {n : String} {e : Failure} (h : Grown Q s₀ s) : Keeps Q s₀ n (.error e) s :=
  ⟨h, fun v hv => by cases hv⟩

theorem ensures_resolve {recurse : String → Resolving Value} {n : String}
    (h : Ensures (Grown Q s₀) (recurse n) (Keeps Q s₀ n)) :
    Ensures (Grown Q s₀) (resolve recurse n) fun r s =>
      Grown Q s₀ s ∧ (r = .ok () → s.binds n = true) := by
  refine ensures_value?_bind fun s hs => ?_
  cases hv : s.value? n with
  | some v =>
      refine ensures_pure ?_
      rintro _ rfl
      exact ⟨hs, fun _ => Option.isSome_iff_exists.2 ⟨v, hv⟩⟩
  | none =>
      refine ensures_bind (Q := Keeps Q s₀ n) (P := (· = s)) ?_
        (fun e s hs => ⟨hs.1, fun hr => by cases hr⟩) fun v => ?_
      · rintro _ d rfl
        exact ensures_withError h (fun _ _ hs => hs) (fun e s hs => .of_error hs.1)
          (fun e s hs => .of_error hs.1) _ d hs
      · exact ensures_pure fun s hs => ⟨hs.1, fun _ => Option.isSome_iff_exists.2 ⟨v, hs.2 v rfl⟩⟩

theorem ensures_evaluate {t : Tree} (hclosed : ClosedUnder definitions s₀ Q)
    (hd : definitions.find? key = some d) (ht : d.tree = some t) (hkey : Text.lower key = key)
    (hunbound : s₀.value? key = none) :
    Ensures (fun s => Grown Q s₀ s ∧ ∀ n ∈ d.dependsOn, s.binds n = true) (evaluate key t)
      (Keeps Q s₀ key) := by
  refine ensures_get_bind fun s hs => ?_
  have hvalue : Ensures (· = s) (ofAction (s.eval t)) fun r s =>
      Grown Q s₀ s ∧ ∀ v, r = .ok v → Q key v := by
    refine ensures_ofAction ?_
    rintro _ draws rfl
    exact ⟨hs.1, fun v hv => hclosed key d t _ v draws _ hd ht hs.1 hs.2 (Prod.ext hv rfl)⟩
  refine ensures_bind (ensures_withError (R := fun r s => Grown Q s₀ s ∧ ∀ v, r = .ok v → Q key v)
    hvalue (fun _ _ hs => hs) (fun e s hs => ⟨hs.1, fun v hv => by cases hv⟩)
      fun e s hs => ⟨hs.1, fun v hv => by cases hv⟩) (fun e s hs => .of_error hs.1) fun v => ?_
  refine ensures_bind (Q := fun r s => Grown Q s₀ s ∧ (r = .ok () → s.value? key = some v))
    (ensures_change (fun s hs _ => ⟨hs.1.bind hkey hunbound (hs.2 v rfl), fun _ => ?_⟩)
      fun s hs _ => ⟨hs.1, fun hr => by cases hr⟩) (fun e s hs => .of_error hs.1) fun _ => ?_
  · rw [Scope.value?_bind, if_pos rfl]
  · refine ensures_pure fun s hs => ⟨hs.1, ?_⟩
    rintro _ ⟨⟩
    exact hs.2 rfl

/-- If after one action for each of some names each name is bound, then so are all after all. -/
theorem ensures_forM_names {f : String → Resolving PUnit} (hclosed : ClosedUnder definitions s₀ Q)
    (hf : ∀ Q s₀, ClosedUnder definitions s₀ Q → ∀ n, Ensures (Grown Q s₀) (f n) fun r s =>
      Grown Q s₀ s ∧ (r = .ok () → s.binds n = true)) (names : List String) :
    Ensures (Grown Q s₀) (names.forM f) fun r s =>
      Grown Q s₀ s ∧ (r = .ok () → ∀ n ∈ names, s.binds n = true) := by
  refine ensures_forM (D := fun n s => s.binds n = true)
    (fun n _ => hf Q s₀ hclosed n) fun n _ m s draws hs => ?_
  -- from any scope on, what is bound stays bound
  have hany : ClosedUnder definitions s fun _ _ => True := fun _ _ _ _ _ _ _ _ _ _ _ _ => trivial
  have hgrown := (hf _ s hany n s draws (.refl _ s)).1
  obtain ⟨v, hv⟩ := Option.isSome_iff_exists.1 hs.2
  exact Option.isSome_iff_exists.2 ⟨v, hgrown.kept m v hv⟩

theorem ensures_complete {recurse : String → Resolving Value}
    (hclosed : ClosedUnder definitions s₀ Q) (hd : definitions.find? key = some d)
    (hkey : Text.lower key = key) (hunbound : s₀.value? key = none)
    (hrecurse : ∀ Q s₀, ClosedUnder definitions s₀ Q → ∀ n,
      Ensures (Grown Q s₀) (recurse n) (Keeps Q s₀ n)) :
    Ensures (Grown Q s₀) (complete recurse key d) (Keeps Q s₀ key) := by
  refine ensures_bind (ensures_forM_names hclosed
    (fun Q s₀ hclosed n => ensures_resolve (hrecurse Q s₀ hclosed n)) d.dependsOn)
    (fun e s hs => .of_error hs.1) fun _ => ?_
  cases ht : d.tree with
  | none => exact ensures_throw fun s hs => .of_error hs.1
  | some t =>
      intro s draws hs
      exact ensures_evaluate hclosed hd ht hkey hunbound s draws ⟨hs.1, hs.2 rfl⟩

/-- A computation keeps to what holds of the values of definitions. -/
theorem ensures_computeWith (hclosed : ClosedUnder definitions s₀ Q) (depth : Nat)
    (path : List String) (name : String) :
    Ensures (Grown Q s₀) (computeWith definitions depth path name) (Keeps Q s₀ name) := by
  induction depth generalizing Q s₀ path name with
  | zero => exact ensures_throw fun s hs => .of_error hs
  | succ depth ih =>
      refine ensures_value?_bind fun s hs => ?_
      cases hv : s.value? (Text.lower name) with
      | some v =>
          refine ensures_pure ?_
          rintro _ rfl
          refine ⟨hs, ?_⟩
          rintro _ ⟨⟩
          rw [← Scope.value?_lower, hv]
      | none =>
          dsimp only
          split
          · refine ensures_throw ?_
            rintro _ rfl
            exact .of_error hs
          · split
            · refine ensures_throw ?_
              rintro _ rfl
              exact .of_error hs
            · rename_i d hd
              rintro _ draws rfl
              obtain ⟨hgrown, hvalue⟩ := ensures_complete hclosed hd (Text.lower_lower name)
                (hs.value?_eq_none hv) (fun Q s₀ hclosed n => ih hclosed _ n) _ draws hs
              refine ⟨hgrown, fun v hr => ?_⟩
              rw [← Scope.value?_lower]
              exact hvalue v hr

/-! ### What is needed -/

/-- The definition of the variable `waiting` mentions the variable `needed`. -/
def Mentions (definitions : Table Definition) (waiting needed : String) : Prop :=
  ∃ d, definitions.find? waiting = some d ∧ needed ∈ d.dependsOn.map Text.lower

/-- A variable without a value is mentioned by the definition of another. -/
def Needs (definitions : Table Definition) (s : Scope) (waiting needed : String) : Prop :=
  Mentions definitions waiting needed ∧ s.binds needed = false

/-- A definition that is there and not empty, as are those that it needs, and so on to such that need
none. -/
inductive Grounded (definitions : Table Definition) (s : Scope) : String → Prop
  | intro {key : String} {d : Definition} {t : Tree} (hd : definitions.find? key = some d)
      (ht : d.tree = some t) (h : ∀ n, Needs definitions s key n → Grounded definitions s n) :
      Grounded definitions s key

theorem Grounded.of_reaches {n : String} (h : Grounded definitions s key)
    (hn : Relation.ReflTransGen (Needs definitions s) key n) : Grounded definitions s n := by
  induction hn with
  | refl => exact h
  | tail _ hneeds ih =>
      obtain ⟨-, -, hall⟩ := ih
      exact hall _ hneeds

/-- What is grounded does not need itself. -/
theorem Grounded.acyclic (h : Grounded definitions s key) :
    ¬Relation.TransGen (Needs definitions s) key key := by
  induction h with
  | intro hd ht _ ih =>
      intro hcycle
      obtain ⟨n, hfirst, hrest⟩ := Relation.TransGen.head'_iff.1 hcycle
      exact ih n hfirst (.tail' hrest hfirst)

theorem closedUnder_grounded (definitions : Table Definition) (s₀ : Scope) :
    ClosedUnder definitions s₀ fun key _ => Grounded definitions s₀ key := by
  intro key d t s v draws draws' hd ht hs hdeps _
  refine .intro hd ht fun n hn => ?_
  obtain ⟨⟨d', hd', hmem⟩, hunbound⟩ := hn
  obtain ⟨m, hm, rfl⟩ := List.mem_map.1 hmem
  rw [hd] at hd'
  cases hd'
  obtain ⟨w, hw⟩ := Option.isSome_iff_exists.1 (hdeps m hm)
  rcases hs.new m w hw with hold | hnew
  · rw [Scope.binds_lower, Scope.binds, hold] at hunbound
    cases hunbound
  · exact hnew

/-! ### Cycles -/

/-- Variables of which each is mentioned by the definition of the next, with the first again at the
end. -/
structure IsCycle (definitions : Table Definition) (cycle : List String) : Prop where
  closed : ∃ key rest, cycle = key :: rest ∧ rest.getLast? = some key
  mentioned : cycle.IsChain fun needed waiting => Mentions definitions waiting needed

/-- A failure that names a cycle names one that there is. -/
def ReportsCycle (definitions : Table Definition) (e : Failure) : Prop :=
  ∀ key text, e = .error (.circularReference key text) →
    ∃ cycle, text = " <- ".intercalate cycle ∧ IsCycle definitions cycle

/-- Each variable of a path waits for the one before it. -/
abbrev Waiting (definitions : Table Definition) (path : List String) : Prop :=
  path.IsChain fun needed waiting => Mentions definitions waiting needed

theorem isCycle_of_mem (hpath : Waiting definitions (key :: path)) (hmem : key ∈ path) :
    IsCycle definitions (key :: path.take (path.idxOf key + 1)) := by
  have hlt : path.idxOf key < path.length := List.idxOf_lt_length_of_mem hmem
  refine ⟨⟨key, _, rfl, ?_⟩, hpath.take (path.idxOf key + 2)⟩
  rw [List.getLast?_eq_getElem?, List.length_take_of_le hlt, Nat.succ_sub_one,
    List.getElem?_take_of_lt (Nat.lt_succ_self _), List.getElem?_eq_getElem hlt, List.getElem_idxOf]

/-- If an action fails and names a cycle, then there is one. -/
abbrev OnlyReportsCycles {α : Type} (definitions : Table Definition) (x : Resolving α) : Prop :=
  Ensures (fun _ => True) x fun r _ => ∀ e, r = .error e → ReportsCycle definitions e

theorem onlyReportsCycles_pure {α : Type} (a : α) : OnlyReportsCycles definitions (pure a) :=
  ensures_pure fun _ _ e he => by cases he

theorem onlyReportsCycles_throw {α : Type} {e : Failure} (he : ReportsCycle definitions e) :
    OnlyReportsCycles definitions (throw e : Resolving α) := by
  refine ensures_throw fun _ _ e' he' => ?_
  cases he'
  exact he

theorem OnlyReportsCycles.bind {α β : Type} {x : Resolving α} {f : α → Resolving β}
    (hx : OnlyReportsCycles definitions x) (hf : ∀ a, OnlyReportsCycles definitions (f a)) :
    OnlyReportsCycles definitions (x >>= f) :=
  ensures_bind hx (fun _ _ hs e he => hs e (by cases he; rfl)) fun a s d _ => hf a s d trivial

theorem onlyReportsCycles_value? (n : String) :
    OnlyReportsCycles definitions (Resolving.value? n) :=
  fun _ _ _ e he => by cases he

theorem onlyReportsCycles_evaluate (key : String) (t : Tree) :
    OnlyReportsCycles definitions (evaluate key t) := by
  refine ensures_get_bind fun s _ => ensures_bind (ensures_withError
    (Q := fun _ _ => True) (R := fun r _ => ∀ e, r = .error e → ReportsCycle definitions e)
    (fun _ _ _ => trivial) ?_ ?_ ?_) ?_ fun v => ?_
  · intro v s _ e he
    cases he
  · -- an error of the evaluation is reported as one in the definition
    intro e s _ e' he' key text h
    cases he'
    cases h
  · intro f s _ e' he' key text h
    cases he'
    cases h
  · intro e s he e' he'
    cases he'
    exact he e rfl
  · intro s d _
    refine OnlyReportsCycles.bind (ensures_change ?_ ?_) (fun _ => onlyReportsCycles_pure v) s d trivial
    · intro s _ _ e he
      cases he
    · intro s _ _ e he key text h
      cases he
      cases h

/-- A dependency that fails with a cycle has named it itself. -/
theorem eq_of_asDependency {n text : String} {e : Error}
    (h : asDependency n e = .circularReference key text) : e = .circularReference key text := by
  unfold asDependency at h
  split at h
  · exact h
  · exact h
  · cases h

theorem onlyReportsCycles_resolve {recurse : String → Resolving Value} {n : String}
    (h : OnlyReportsCycles definitions (recurse n)) :
    OnlyReportsCycles definitions (resolve recurse n) := by
  refine (onlyReportsCycles_value? n).bind fun v => ?_
  cases v with
  | some v => exact onlyReportsCycles_pure _
  | none =>
      refine OnlyReportsCycles.bind (ensures_withError h ?_ ?_ ?_) fun _ => onlyReportsCycles_pure _
      · intro v s hs e he
        cases he
      · intro e s hs e' he' key text hcircular
        cases he'
        exact hs _ rfl key text (congrArg Failure.error (eq_of_asDependency (Failure.error.inj hcircular)))
      · intro f s hs e' he' key text h
        cases he'
        cases h

/-- **Cycles that are reported are cycles.** -/
theorem onlyReportsCycles_computeWith (depth : Nat) (hpath : Waiting definitions (Text.lower name :: path)) :
    OnlyReportsCycles definitions (computeWith definitions depth path name) := by
  induction depth generalizing path name with
  | zero => exact onlyReportsCycles_throw fun _ _ h => by cases h
  | succ depth ih =>
      refine (onlyReportsCycles_value? _).bind fun v => ?_
      cases v with
      | some v => exact onlyReportsCycles_pure _
      | none =>
          dsimp only
          split
          · rename_i hmem
            refine onlyReportsCycles_throw fun key text h => ?_
            cases h
            exact ⟨_, rfl, isCycle_of_mem hpath (List.contains_iff_mem.1 hmem)⟩
          · split
            · exact onlyReportsCycles_throw fun _ _ h => by cases h
            · rename_i d hd
              refine OnlyReportsCycles.bind ?_ fun _ => ?_
              · refine ensures_forM_of_step (fun n hn => onlyReportsCycles_resolve (ih ?_))
                  (fun _ _ => trivial) fun _ _ e he => by cases he
                exact .cons_cons ⟨d, hd, List.mem_map_of_mem hn⟩ hpath
              · split
                · exact onlyReportsCycles_throw fun _ _ h => by cases h
                · exact onlyReportsCycles_evaluate _ _

/-! ### Definitions in source text -/

/-- A definition mentions the free names of its tree, which is read from its source text. -/
theorem of_ofSource {read : String → Outcome (Option Tree)} {source : Option String}
    (h : ofSource read source = .ok d) :
    FreeNames.ofTree? read [] d.tree = .ok d.dependsOn ∧
      ∀ t, d.tree = some t → ∃ text, source = some text ∧ read text = .ok (some t) := by
  have hdefinition (tree : Option Tree) (h : (do return ⟨tree, ← FreeNames.ofTree? read [] tree⟩) =
      (.ok d : Outcome Definition)) : d.tree = tree ∧ FreeNames.ofTree? read [] tree = .ok d.dependsOn := by
    obtain ⟨names, hnames, hd⟩ := exists_of_bind_eq_ok h
    cases hd
    exact ⟨rfl, hnames⟩
  cases source with
  | none =>
      obtain ⟨htree, hnames⟩ := hdefinition none h
      rw [htree]
      exact ⟨hnames, fun t ht => by cases ht⟩
  | some s =>
      obtain ⟨tree, hread, hrest⟩ := exists_of_bind_eq_ok h
      obtain ⟨htree, hnames⟩ := hdefinition tree hrest
      rw [htree]
      refine ⟨hnames, fun t ht => ⟨s, rfl, ?_⟩⟩
      rw [← ht]
      exact hread

/-- What definitions mention that are written in source text are keys. -/
theorem isKey_of_table {read : String → Outcome (Option Tree)}
    {sources : List (String × Option String)} (h : table read sources = .ok definitions)
    (hd : definitions.find? key = some d) : d.dependsOn.map Text.lower = d.dependsOn := by
  refine (List.map_congr_left fun n hn => ?_).trans (List.map_id _)
  refine invariant_of_foldlM_eq_ok
    (P := fun t => ∀ key d, t.find? key = some d → ∀ n ∈ d.dependsOn, Text.lower n = n) ?_ ?_ h key d hd n hn
  · intro t source t' ht hstep key d hd
    dsimp only at hstep
    split at hstep
    · cases hstep
    · obtain ⟨d', hd', hinsert⟩ := exists_of_bind_eq_ok hstep
      cases hinsert
      rw [Table.find?_insert] at hd
      split at hd
      · cases hd
        exact FreeNames.areKeys_ofTree? read [] d.tree d.dependsOn (of_ofSource hd').1
      · exact ht key d hd
  · intro key d hd
    cases hd

/-- **Dependencies.** The computation of a variable ends: it is the recursion that it is written as,
and calls that are nested deeper than there are definitions are never made, whatever they would do. After
success the definitions that were needed, one through the other, are there, are not empty and make no
cycle. A cycle that an error names is one: it ends where it starts, and each of its variables is listed by
the definition of the next, by its key if the definitions are written in source text. -/
theorem compute_ends_and_finds_cycles (definitions : Table Definition) (name : String) :
    (compute definitions = computeStep definitions (compute definitions) ∧
      ∀ below path, (computeStep definitions)^[definitions.entries.length + 1] below path name =
        compute definitions path name) ∧
    (∀ s d v, ((compute definitions [] name).runFrom s d).1.1 = .ok v → s.binds name = false →
      ∀ key, Relation.ReflTransGen (Needs definitions s) (Text.lower name) key →
        (∃ d t, definitions.find? key = some d ∧ d.tree = some t) ∧
          ¬Relation.TransGen (Needs definitions s) key key) ∧
    (∀ s d key text, ((compute definitions [] name).runFrom s d).1.1 =
        .error (.error (.circularReference key text)) →
      ∃ cycle, text = " <- ".intercalate cycle ∧ IsCycle definitions cycle) ∧
    (∀ read sources, table read sources = .ok definitions → ∀ key d,
      definitions.find? key = some d → d.dependsOn.map Text.lower = d.dependsOn) := by
  refine ⟨⟨compute_eq definitions, fun below path => congrFun (iterate_computeStep below path) name⟩,
    fun s draws v hv hunbound key hkey => ?_, fun s draws key text h => ?_,
    fun read sources h key d hd => isKey_of_table h hd⟩
  · obtain ⟨hgrown, hvalue⟩ :=
      ensures_computeWith (closedUnder_grounded definitions s) _ [] name s draws (.refl _ s)
    have hname : Grounded definitions s (Text.lower name) := by
      rcases hgrown.new name v (hvalue v hv) with hold | hnew
      · rw [Scope.binds, hold] at hunbound
        cases hunbound
      · exact hnew
    have hground := hname.of_reaches hkey
    refine ⟨?_, hground.acyclic⟩
    obtain ⟨hd, ht, -⟩ := hground
    exact ⟨_, _, hd, ht⟩
  · exact onlyReportsCycles_computeWith _ (.singleton _) s draws trivial _ h key text rfl

/-- Two definitions, once one after the other and once in a cycle. -/
theorem compute_ends_and_finds_cycles_pair :
    (¬Relation.TransGen (Needs ⟨[("a", ⟨some (.leaf (.name "b" [])), ["b"]⟩),
      ("b", ⟨some (.leaf (.boolean true)), []⟩)]⟩ .empty) "a" "a") ∧
    ∃ cycle, "a <- b <- a" = " <- ".intercalate cycle ∧
      IsCycle ⟨[("a", ⟨some (.leaf (.name "b" [])), ["b"]⟩),
        ("b", ⟨some (.leaf (.name "a" [])), ["a"]⟩)]⟩ cycle :=
  ⟨((compute_ends_and_finds_cycles _ "a").2.1 .empty .default (.boolean true) rfl rfl "a" .refl).2,
    (compute_ends_and_finds_cycles _ "a").2.2.1 .empty .default "a" _ rfl⟩

end MathExpr.Definition
