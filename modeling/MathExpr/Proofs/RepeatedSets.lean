import MathExpr.Proofs.EvaluatedOnce
import MathExpr.Proofs.EvaluationFailures
import MathExpr.Proofs.FailureOrigins

/-!
# Sets that are made until one meets a condition

To generate variables is to make sets of them, one after the other, until one meets the condition
(`VariableSet.generate_repeats_make`): the sets draw from one stream of random numbers, and what ends the
repetition is the first set that meets the condition, or the first that cannot be made, or that there are no
more runs.

Each set is made with the condition as it is read among its own variables, but variables are generated with
the condition as it is read before there are any. The two are the same (`makeFromSources_eq`), unless the
condition applies a variable as if it were a function: then it is not the same condition
(`VariableSet.not_repeatsMake`).
-/

namespace MathExpr

namespace Action

variable {α β : Type}

theorem ofOutcome_pure (a : α) : ofOutcome (pure a) = pure a := rfl

theorem ofOutcome_bind (x : Outcome α) (f : α → Outcome β) :
    ofOutcome (x >>= f) = ofOutcome x >>= fun a => ofOutcome (f a) := by
  cases x <;> rfl

end Action

/-! ### Computations do not run out of runs -/

namespace Definition

open Resolving

variable {definitions : Table Definition} {s : Scope} {d : Draws} {limit : Int}

theorem asDependency_ne_tooManyRuns (n : String) (e : Error) : asDependency n e ≠ .tooManyRuns limit := by
  unfold asDependency
  split <;> exact nofun

theorem not_failsWith_compute_tooManyRuns {path : List String} {name : String} :
    ¬FailsWith (compute definitions path name) s d (.tooManyRuns limit) := by
  intro h
  rcases (failsWith_compute.1 h).2 with ⟨-, he⟩ | ⟨-, ⟨-, he⟩ | ⟨definition, -, hcomplete⟩⟩
  · cases he
  · cases he
  · rcases failsWith_complete.1 hcomplete with
      ⟨_, n, _, _, _, cause, _, _, _, _, he⟩ | ⟨_, _, _, ⟨-, he⟩ | ⟨_, _, _, _, he⟩⟩
    · exact asDependency_ne_tooManyRuns n cause he
    · cases he
    · cases he

theorem not_failsWith_computeAll_tooManyRuns :
    ¬FailsWith (computeAll definitions) s d (.tooManyRuns limit) := by
  intro h
  obtain ⟨_, name, _, _, _, _, _, hname⟩ := failsWith_forM.1 h
  rcases failsWith_bind.1 hname with hcompute | ⟨_, _, _, _, hpure⟩
  · exact not_failsWith_compute_tooManyRuns hcompute
  · exact not_failsWith_pure hpure

end Definition

namespace VariableSet

open Definition Resolving
open MathExpr.Action (runFrom)

variable {s : Scope} {definitions : Table Definition} {condition condition' : Option Condition}
  {limit : Int}

/-! ### Making one set -/

/-- What is concluded about a set fails as the evaluation of the condition does. -/
theorem fails_conclude (definitions : Table Definition) (condition : Option Condition) (s : Scope) :
    (conclude definitions condition s).FailsAsEvaluation := by
  cases condition with
  | none => exact .pure _
  | some c =>
      have hread : Outcome.FailsAsReading (c.toTree s) := by
        cases c with
        | source text => exact s.fails_tree text
        | tree t => exact .ok _
      refine Action.FailsAsEvaluation.bind ?_ fun _ => .pure _
      refine (Action.FailsAsEvaluation.ofOutcome hread).bind fun t => ?_
      cases t with
      | none => exact .pure _
      | some t =>
          refine (s.fails_eval t).bind fun v => ?_
          cases v <;> exact .pure _

theorem runFrom_make_ne_tooManyRuns {d d' : Draws} :
    runFrom (make s definitions condition) d ≠ (.error (.error (.tooManyRuns limit)), d') := by
  intro h
  rw [runFrom_make_conclude] at h
  split at h
  · rename_i s' d₁ _
    have hends := fails_conclude definitions condition s' d₁
    rw [h] at hends
    cases hends
  · rename_i hrun
    cases h
    have hfails : FailsWith (computeAll definitions) s.child d (.tooManyRuns limit) := by
      rw [FailsWith, hrun]
    exact not_failsWith_computeAll_tooManyRuns hfails

/-- The keys that have no value in a scope before the definitions are computed. -/
def newKeys (s : Scope) (definitions : Table Definition) : List String :=
  definitions.keys.filter fun key => !s.binds key

/-- While definitions are computed, a text is read as before if it applies none of their variables. -/
theorem tree_eq_of_grown {s' : Scope} (h : Grown (fun key _ => key ∈ definitions.keys) s.child s')
    {text : String} (htext : s.AppliesFunctions (newKeys s definitions) text) :
    s'.tree text = s.tree text := by
  have hsignatures (name : String) : s'.signatures name = s.child.signatures name := by
    unfold Scope.signatures
    rw [h.functions]
  refine Scope.tree_eq_of_binds (fun name => ?_) (fun n hn => ?_) htext
  · rw [hsignatures, Scope.signatures_child_eq_nil]
  · cases hbefore : s.value? n with
    | some v =>
        rw [Scope.binds, h.kept n v (by rw [Scope.value?_child, hbefore]), Scope.binds, hbefore]
    | none =>
        rw [Scope.binds, Scope.binds, hbefore]
        cases hv : s'.value? n with
        | none => rfl
        | some v =>
            rcases h.new n v hv with hold | hkey
            · rw [Scope.value?_child, hbefore] at hold
              cases hold
            · refine absurd (List.mem_filter.2 ⟨hkey, ?_⟩) hn
              rw [Scope.binds_lower, Scope.binds, hbefore]
              rfl

/-- Only what is defined is bound anew. -/
theorem closedUnder_mem_keys (definitions : Table Definition) (s₀ : Scope) :
    ClosedUnder definitions s₀ fun key _ => key ∈ definitions.keys :=
  fun _ d _ _ _ _ _ hd _ _ _ _ => Table.mem_keys.2 ⟨d, hd⟩

/-- A set is made alike with conditions of which the same is concluded. -/
theorem make_congr (h : ∀ s', Grown (fun key _ => key ∈ definitions.keys) s.child s' →
      conclude definitions condition s' = conclude definitions condition' s') :
    make s definitions condition = make s definitions condition' := by
  refine funext fun d => ?_
  change runFrom (make s definitions condition) d = runFrom (make s definitions condition') d
  rw [runFrom_make_conclude, runFrom_make_conclude]
  have hgrown := (ensures_computeAll_grown (closedUnder_mem_keys definitions s.child) s.child d (.refl _ _)).1
  rcases hrun : (computeAll definitions).runFrom s.child d with ⟨⟨r, s'⟩, d'⟩
  rw [hrun] at hgrown
  cases r with
  | error e => rfl
  | ok u => exact congrArg (fun x => runFrom x d') (h s' hgrown)

/-! ### Source text -/

variable {sources : List (String × Option String)} {source : Option String}

/-- The variables with definitions and a condition in source text. -/
def makeFromSources (s : Scope) (sources : List (String × Option String)) (condition : Option String) :
    Action VariableSet := do
  make s (← Action.ofOutcome (Definition.table s.tree sources)) (condition.map .source)

/-- The variables with definitions in source text, made anew until they meet a condition in source text. -/
def generateFromSources (s : Scope) (sources : List (String × Option String)) (condition : Option String)
    (runs : Int) : Action (Table Value) := do
  generate s (← Action.ofOutcome (Definition.table s.tree sources)) (condition.map .source) runs

/-- A condition as it is read in a scope. -/
def readCondition (s : Scope) : Option String → Outcome (Option Condition)
  | none => return none
  | some text => return (← s.tree text).map .tree

/-- What is read before the first set is made. -/
def readSources (s : Scope) (sources : List (String × Option String)) (condition : Option String) :
    Outcome (Table Definition × Option Condition) :=
  return (← Definition.table s.tree sources, ← readCondition s condition)

/-- The variables that have been found, or a failure. -/
def orFail (e : Failure) : Option (Table Value) → Action (Table Value)
  | some values => return values
  | none => throw e

/-- The variables of the first of some sets that meets the condition. -/
def repeatMake (s : Scope) (definitions : Table Definition) (condition : Option Condition) (runs : Int) :
    Action (Table Value) :=
  firstSatisfied s definitions condition runs.toNat >>= orFail (.error (.tooManyRuns runs))

theorem generate_eq (s : Scope) (definitions : Table Definition) (source : Option String) (runs : Int) :
    generate s definitions (source.map .source) runs =
      Action.ofOutcome (readCondition s source) >>= fun condition =>
        repeatMake s definitions condition runs := by
  cases source with
  | none =>
      simp only [generate, repeatMake, readCondition, Option.map, Action.ofOutcome_pure, pure_bind]
      rfl
  | some text =>
      simp only [generate, repeatMake, readCondition, Option.map, Action.ofOutcome_bind,
        Action.ofOutcome_pure, pure_bind, bind_assoc, Condition.toTree]
      rfl

/-- Before variables are generated, all is read. -/
theorem generateFromSources_eq (s : Scope) (sources : List (String × Option String)) (source : Option String)
    (runs : Int) : generateFromSources s sources source runs =
      Action.ofOutcome (readSources s sources source) >>= fun read => repeatMake s read.1 read.2 runs := by
  unfold generateFromSources readSources
  simp only [generate_eq, Action.ofOutcome_bind, bind_assoc, Action.ofOutcome_pure, pure_bind]

/-- After a set has been computed, the condition is read. -/
theorem conclude_source (definitions : Table Definition) (source : Option String) (s : Scope) :
    conclude definitions (source.map .source) s =
      Action.ofOutcome (readCondition s source) >>= fun condition => conclude definitions condition s := by
  cases source with
  | none => rfl
  | some text =>
      have hholds : (Condition.source text).holds s = Action.ofOutcome (s.tree text) >>= fun t =>
          t.elim (return true) fun t => (Condition.tree t).holds s :=
        bind_congr fun t => by cases t <;> rfl
      show (do return VariableSet.mk _ (← (Condition.source text).holds s) s) = _
      rw [hholds, readCondition, Action.ofOutcome_bind]
      cases s.tree text with
      | error e => rfl
      | ok t => cases t <;> rfl

/-- The condition does not apply, as if it were a function, a variable that has no value before. -/
def AppliesNoVariable (s : Scope) (sources : List (String × Option String)) (condition : Option String) :
    Prop :=
  ∀ definitions text, Definition.table s.tree sources = .ok definitions → condition = some text →
    s.AppliesFunctions (newKeys s definitions) text

theorem readCondition_eq (happlied : AppliesNoVariable s sources source)
    (hdefinitions : Definition.table s.tree sources = .ok definitions) {s' : Scope}
    (h : Grown (fun key _ => key ∈ definitions.keys) s.child s') :
    readCondition s' source = readCondition s source := by
  cases source with
  | none => rfl
  | some text =>
      simp only [readCondition, tree_eq_of_grown h (happlied definitions text hdefinitions rfl)]

/-- A set is made with the condition as it is read before. -/
theorem makeFromSources_eq (happlied : AppliesNoVariable s sources source)
    (hread : readSources s sources source = .ok (definitions, condition)) :
    makeFromSources s sources source = make s definitions condition := by
  obtain ⟨definitions, hdefinitions, hread⟩ := exists_of_bind_eq_ok hread
  obtain ⟨condition, hcondition, hread⟩ := exists_of_bind_eq_ok hread
  cases hread
  unfold makeFromSources
  rw [hdefinitions, Action.ofOutcome_ok_bind]
  refine make_congr fun s' hs' => ?_
  rw [conclude_source, readCondition_eq happlied hdefinitions hs', hcondition, Action.ofOutcome_ok_bind]

/-- A set is not made from sources that cannot be read. -/
theorem makeFromSources_fails (happlied : AppliesNoVariable s sources source) {e : Failure}
    (hread : readSources s sources source = .error e) (d : Draws) :
    ∃ e' d', runFrom (makeFromSources s sources source) d = (.error e', d') := by
  unfold makeFromSources
  cases hdefinitions : Definition.table s.tree sources with
  | error e => exact ⟨e, d, rfl⟩
  | ok definitions =>
      have hcondition : readCondition s source = .error e := by
        rw [readSources, hdefinitions] at hread
        cases hc : readCondition s source with
        | error e' =>
            rw [hc] at hread
            cases hread
            rfl
        | ok condition =>
            rw [hc] at hread
            cases hread
      rw [Action.ofOutcome_ok_bind, runFrom_make_conclude]
      have hgrown := (ensures_computeAll_grown (closedUnder_mem_keys definitions s.child) s.child d
        (.refl _ _)).1
      rcases hrun : (computeAll definitions).runFrom s.child d with ⟨⟨r, s'⟩, d'⟩
      rw [hrun] at hgrown
      cases r with
      | error e' => exact ⟨e', d', rfl⟩
      | ok u =>
          refine ⟨e, d', ?_⟩
          dsimp only
          rw [conclude_source, readCondition_eq happlied hdefinitions hgrown, hcondition]
          rfl

/-! ### Sets that are made one after the other -/

/-- Sets are made one after the other, of which none meets the condition: how many, and from which state of
the random numbers to which. -/
inductive Misses (run : Action VariableSet) : Nat → Draws → Draws → Prop
  | none {d : Draws} : Misses run 0 d d
  | next {n : Nat} {d d₁ d' : Draws} {set : VariableSet} (hrun : runFrom run d = (.ok set, d₁))
      (hset : set.satisfied = false) (hrest : Misses run n d₁ d') : Misses run (n + 1) d d'

/-- A set is made that meets the condition, or cannot be made. -/
inductive Stops (run : Action VariableSet) (d : Draws) : Except Failure (Table Value) → Draws → Prop
  | satisfied {set : VariableSet} {d' : Draws} (hrun : runFrom run d = (.ok set, d'))
      (hset : set.satisfied = true) : Stops run d (.ok set.values) d'
  | failed {e : Failure} {d' : Draws} (hrun : runFrom run d = (.error e, d')) : Stops run d (.error e) d'

variable {run : Action VariableSet} {n : Nat} {d d₁ d' : Draws} {set : VariableSet}
  {r : Except Failure (Table Value)}

/-- After some sets that do not meet the condition, one ends the repetition. -/
def StopsWithin (run : Action VariableSet) (n : Nat) (d : Draws) (r : Except Failure (Table Value))
    (d' : Draws) : Prop :=
  ∃ k < n, ∃ d₁, Misses run k d d₁ ∧ Stops run d₁ r d'

theorem misses_succ_iff (hrun : runFrom run d = (.ok set, d₁)) (hset : set.satisfied = false) :
    Misses run (n + 1) d d' ↔ Misses run n d₁ d' := by
  refine ⟨fun h => ?_, .next hrun hset⟩
  cases h with
  | next hrun' _ hrest =>
      cases hrun.symm.trans hrun'
      exact hrest

theorem stopsWithin_succ_iff (hrun : runFrom run d = (.ok set, d₁)) (hset : set.satisfied = false) :
    StopsWithin run (n + 1) d r d' ↔ StopsWithin run n d₁ r d' := by
  constructor
  · rintro ⟨k, hk, d₂, hmisses, hstops⟩
    cases hmisses with
    | none =>
        cases hstops with
        | satisfied hrun' hset' =>
            cases hrun.symm.trans hrun'
            cases hset.symm.trans hset'
        | failed hrun' => cases hrun.symm.trans hrun'
    | @next k _ _ _ _ hrun' _ hrest =>
        cases hrun.symm.trans hrun'
        exact ⟨k, Nat.lt_of_succ_lt_succ hk, d₂, hrest, hstops⟩
  · rintro ⟨k, hk, d₂, hmisses, hstops⟩
    exact ⟨k + 1, Nat.succ_lt_succ hk, d₂, .next hrun hset hmisses, hstops⟩

/-- A set that ends the repetition is the last. -/
theorem Stops.not_misses (h : Stops run d r d₁) : ¬Misses run (n + 1) d d' := by
  rintro (_ | ⟨hrun', hset', -⟩)
  cases h with
  | satisfied hrun hset =>
      cases hrun.symm.trans hrun'
      cases hset.symm.trans hset'
  | failed hrun => cases hrun.symm.trans hrun'

theorem Stops.stopsWithin_succ_iff {r' : Except Failure (Table Value)} (h : Stops run d r d₁) :
    StopsWithin run (n + 1) d r' d' ↔ r' = r ∧ d' = d₁ := by
  constructor
  · rintro ⟨k, -, d₂, hmisses, hstops⟩
    cases k with
    | succ k => exact absurd hmisses h.not_misses
    | zero =>
        cases hmisses
        cases h with
        | satisfied hrun hset =>
            cases hstops with
            | satisfied hrun' _ =>
                cases hrun.symm.trans hrun'
                exact ⟨rfl, rfl⟩
            | failed hrun' => cases hrun.symm.trans hrun'
        | failed hrun =>
            cases hstops with
            | satisfied hrun' _ => cases hrun.symm.trans hrun'
            | failed hrun' =>
                cases hrun.symm.trans hrun'
                exact ⟨rfl, rfl⟩
  · rintro ⟨rfl, rfl⟩
    exact ⟨0, Nat.succ_pos n, d, .none, h⟩

theorem firstSatisfied_succ_bind (s : Scope) (definitions : Table Definition)
    (condition : Option Condition) (n : Nat) (f : Option (Table Value) → Action (Table Value)) :
    firstSatisfied s definitions condition (n + 1) >>= f = make s definitions condition >>= fun made =>
      if made.satisfied then f (some made.values) else firstSatisfied s definitions condition n >>= f := by
  rw [firstSatisfied, bind_assoc]
  refine bind_congr fun made => ?_
  split <;> rfl

/-- Sets are made up to the first that ends the repetition, if there is one. -/
theorem runFrom_firstSatisfied (s : Scope) (definitions : Table Definition) (condition : Option Condition)
    (e : Failure) (n : Nat) (d : Draws) :
    runFrom (firstSatisfied s definitions condition n >>= orFail e) d = (r, d') ↔
      StopsWithin (make s definitions condition) n d r d' ∨
        r = .error e ∧ Misses (make s definitions condition) n d d' := by
  induction n generalizing d with
  | zero =>
      have hnone : firstSatisfied s definitions condition 0 >>= orFail e = throw e := rfl
      rw [hnone, Action.runFrom_throw]
      constructor
      · rintro ⟨⟩
        exact .inr ⟨rfl, .none⟩
      · rintro (⟨k, hk, -⟩ | ⟨rfl, ⟨⟩⟩)
        · exact absurd hk (Nat.not_lt_zero k)
        · rfl
  | succ n ih =>
      rw [firstSatisfied_succ_bind, Action.runFrom_bind]
      -- the first set ends the repetition, or the rest of them is repeated
      rcases hrun : runFrom (make s definitions condition) d with ⟨e' | set, d₁⟩
      · have hstops := Stops.failed hrun
        rw [hstops.stopsWithin_succ_iff, or_iff_left fun h => hstops.not_misses h.2, Prod.mk.injEq]
        exact and_congr eq_comm eq_comm
      · cases hset : set.satisfied with
        | true =>
            have hstops := Stops.satisfied hrun hset
            rw [hstops.stopsWithin_succ_iff, or_iff_left fun h => hstops.not_misses h.2]
            dsimp only
            rw [hset, if_pos rfl, orFail, Action.runFrom_pure, Prod.mk.injEq]
            exact and_congr eq_comm eq_comm
        | false =>
            rw [stopsWithin_succ_iff hrun hset, misses_succ_iff hrun hset, ← ih d₁]
            dsimp only
            rw [hset, if_neg Bool.false_ne_true]

/-! ### Variables that are generated -/

/-- The variables that are generated are those of the first of some sets, made one after the other, that
meets the condition; a set that cannot be made before is what generating them fails with, and if all sets are
made in vain, they are too many. -/
structure RepeatsMake (s : Scope) (sources : List (String × Option String)) (condition : Option String)
    (runs : Int) (d : Draws) : Prop where
  ends : ∀ r d', runFrom (generateFromSources s sources condition runs) d = (r, d') ↔
    StopsWithin (makeFromSources s sources condition) runs.toNat d r d' ∨
      r = .error (.error (.tooManyRuns runs)) ∧
        Misses (makeFromSources s sources condition) runs.toNat d d'
  exhausts : ∀ d', runFrom (generateFromSources s sources condition runs) d =
      (.error (.error (.tooManyRuns runs)), d') ↔
    Misses (makeFromSources s sources condition) runs.toNat d d'

/-- **Variables are generated by making sets of them.** If the definitions and the condition can be read, and
the condition applies no variable that is new, then variables are generated by making sets of them until one
meets the condition. If they cannot be read, then this is what generating them fails with, and no set can be
made. -/
theorem generate_repeats_make (happlied : AppliesNoVariable s sources source) :
    (∀ read, readSources s sources source = .ok read → ∀ runs d, RepeatsMake s sources source runs d) ∧
    ∀ e, readSources s sources source = .error e → ∀ runs d,
      runFrom (generateFromSources s sources source runs) d = (.error e, d) ∧
        ∃ e' d', runFrom (makeFromSources s sources source) d = (.error e', d') := by
  refine ⟨?_, fun e hread runs d => ⟨?_, makeFromSources_fails happlied hread d⟩⟩
  · rintro ⟨definitions, condition⟩ hread runs d
    have hends (r : Except Failure (Table Value)) (d' : Draws) :
        runFrom (repeatMake s definitions condition runs) d = (r, d') ↔
          StopsWithin (make s definitions condition) runs.toNat d r d' ∨
            r = .error (.error (.tooManyRuns runs)) ∧ Misses (make s definitions condition) runs.toNat d d' :=
      runFrom_firstSatisfied s definitions condition _ runs.toNat d
    rw [← makeFromSources_eq happlied hread] at hends
    have hgenerate : generateFromSources s sources source runs = repeatMake s definitions condition runs := by
      rw [generateFromSources_eq, hread, Action.ofOutcome_ok_bind]
    refine ⟨fun r d' => ?_, fun d' => ?_⟩
    · rw [hgenerate]
      exact hends r d'
    · rw [hgenerate]
      refine (hends _ d').trans ⟨fun h => ?_, fun h => .inr ⟨rfl, h⟩⟩
      -- no set fails with too many runs
      rcases h with ⟨k, -, d₁, -, hstops⟩ | ⟨-, hmisses⟩
      · cases hstops with
        | failed hrun =>
            rw [makeFromSources_eq happlied hread] at hrun
            exact absurd hrun runFrom_make_ne_tooManyRuns
      · exact hmisses
  · rw [generateFromSources_eq, hread]
    rfl

/-- A random choice, and a condition that applies a function. -/
theorem generate_repeats_make_choice :
    RepeatsMake Library.scope [("a", some "random([true, false])")] (some "if(a, true, false)") 3
      .default := by
  have htokens : Token.ofSource (Text.strip "if(a, true, false)") =
      .ok [.function "if", .mark .openRound, .name "a" [], .mark .comma, .boolean true, .mark .comma,
        .boolean false, .mark .closeRound] := by
    decide +kernel
  have hfunction : Library.scope.signatures "if" ≠ [] := by
    rw [Library.signatures_scope]
    decide +kernel
  have hread : (readSources Library.scope [("a", some "random([true, false])")]
      (some "if(a, true, false)")).toOption.isSome = true := by
    rw [Library.scope_eq]
    decide +kernel
  have happlied : AppliesNoVariable Library.scope [("a", some "random([true, false])")]
      (some "if(a, true, false)") := by
    rintro definitions _ - ⟨⟩ ts hts name hname hnone
    cases htokens.symm.trans hts
    simp only [List.mem_cons, Token.function.injEq, reduceCtorEq, or_false, List.not_mem_nil] at hname
    exact absurd (hname ▸ hnone) hfunction
  cases hsources : readSources Library.scope [("a", some "random([true, false])")]
      (some "if(a, true, false)") with
  | error e =>
      rw [hsources] at hread
      cases hread
  | ok read => exact (generate_repeats_make happlied).1 read hsources 3 .default

/-! ### Where the condition is not the same -/

/-- Whether a set is made that meets the condition. -/
def isSatisfied (s : Scope) (sources : List (String × Option String)) (condition : Option String) : Bool :=
  match (runFrom (makeFromSources s sources condition) .default).1 with
  | .ok set => set.satisfied
  | .error _ => false

/-- Whether generating variables fails because all of some sets are made in vain. -/
def isExhausted (s : Scope) (sources : List (String × Option String)) (condition : Option String)
    (runs : Int) : Bool :=
  match (runFrom (generateFromSources s sources condition runs) .default).1 with
  | .error (.error (.tooManyRuns n)) => n == runs
  | _ => false

theorem RepeatsMake.isExhausted_eq_false (h : RepeatsMake s sources source 1 .default)
    (hset : isSatisfied s sources source = true) : isExhausted s sources source 1 = false := by
  unfold isSatisfied at hset
  rcases hrun : runFrom (makeFromSources s sources source) .default with ⟨_ | set, d₁⟩
  · rw [hrun] at hset
    cases hset
  · rw [hrun] at hset
    have hends := (h.ends (.ok set.values) d₁).2 (.inl ⟨0, Nat.one_pos, _, .none, .satisfied hrun hset⟩)
    rw [isExhausted, hends]

set_option maxRecDepth 10000 in
/-- A condition that is met, if `a` is a variable, because `a(x)` is a product: but it is read as an
application where there is no variable yet, and so it is never met. -/
theorem not_repeatsMake :
    ¬RepeatsMake Library.scope [("a", some "true")] (some "a(x) isa 'op'") 1 .default := by
  have hruns : isSatisfied Library.scope [("a", some "true")] (some "a(x) isa 'op'") = true ∧
      isExhausted Library.scope [("a", some "true")] (some "a(x) isa 'op'") 1 = true := by
    rw [Library.scope_eq]
    decide +kernel
  intro h
  exact absurd (h.isExhausted_eq_false hruns.1) (by rw [hruns.2]; decide)

end VariableSet

end MathExpr
