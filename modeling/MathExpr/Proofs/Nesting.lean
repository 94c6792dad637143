import MathExpr.Proofs.Frames
import MathExpr.Proofs.PostfixOperators

/-!
# Expressions inside brackets

Tokens that are arranged into a tree on their own are arranged into the same tree inside brackets
(`Frame.run_nested`): what waits on the stack below and has been finished before is not seen from above a bracket
(`Arrangement.step_inside`).
-/

namespace MathExpr

open Arrangement (startsList)

/-- What waits on the stack where `n` more trees have been finished before. -/
def Pending.shift (n : Nat) : Pending → Pending
  | op o => op o
  | group => group
  | call name start commas => call name (start + n) commas
  | square isIndex start commas => square isIndex (start + n) commas

/-! ### Arrangements on top of others -/

namespace Arrangement

/-- An arrangement on top of a stack and an output. -/
def inside (a : Arrangement) (stack : List Pending) (output : List Tree) : Arrangement :=
  ⟨a.stack.map (Pending.shift output.length) ++ stack, a.output ++ output⟩

/-- No operator is on top. -/
def IsBarrier (stack : List Pending) : Prop := ∀ o, stack.head? ≠ some (.op o)

variable {stack : List Pending} {output : List Tree} {a a' : Arrangement} {previous : Option Token} {t : Tree}

theorem combine_inside {head : Head} {label : String} {n : Nat} {trees trees' : List Tree}
    (h : combine head label n trees = .ok trees') (output : List Tree) :
    combine head label n (trees ++ output) = .ok (trees' ++ output) := by
  unfold combine at h ⊢
  split at h
  · cases h
  · rename_i hlength
    cases h
    rw [if_neg (by rw [List.length_append]; omega), List.take_append_of_le_length (by omega),
      List.drop_append_of_le_length (by omega)]
    rfl

theorem applyWhile_inside (hbarrier : IsBarrier stack) {isReady : Operator → Bool}
    {pending : List Pending} {trees : List Tree} (h : applyWhile isReady pending trees = .ok a) :
    applyWhile isReady (pending.map (Pending.shift output.length) ++ stack) (trees ++ output) =
      .ok (a.inside stack output) := by
  induction pending generalizing trees with
  | nil =>
      cases h
      -- on its own the loop ends with the stack, here at the barrier
      cases stack with
      | nil => rfl
      | cons p stack =>
          cases p with
          | op o => exact absurd rfl (hbarrier o)
          | _ => rfl
  | cons p pending ih =>
      cases p with
      | op o =>
          change (if isReady o then _ else _) = _ at h
          change (if isReady o then _ else _) = _
          split at h
          · rename_i hready
            obtain ⟨trees', happly, h⟩ := exists_of_bind_eq_ok h
            rw [if_pos hready, show apply o (trees ++ output) = .ok (trees' ++ output) from
              combine_inside happly output]
            exact ih h
          · rename_i hready
            cases h
            rw [if_neg hready]
            rfl
      | group | call | square =>
          cases h
          rfl

theorem applyAll_inside (hbarrier : IsBarrier stack) (h : a.applyAll = .ok a') :
    (a.inside stack output).applyAll = .ok (a'.inside stack output) :=
  applyWhile_inside hbarrier h

theorem argumentCount_inside (start commas : Nat) (trees output : List Tree) :
    argumentCount (start + output.length) commas (trees ++ output) = argumentCount start commas trees := by
  simp [argumentCount]

theorem operator_inside (hbarrier : IsBarrier stack) {o : Operator} (h : a.operator o = .ok a') :
    (a.inside stack output).operator o = .ok (a'.inside stack output) := by
  unfold operator at h ⊢
  split at h
  · rename_i hbefore
    cases h
    rw [if_pos hbefore]
    rfl
  · rename_i hbefore
    obtain ⟨b, hb, h⟩ := exists_of_bind_eq_ok h
    cases h
    rw [if_neg hbefore, show applyWhile _ (a.inside stack output).stack (a.inside stack output).output = _ from
      applyWhile_inside hbarrier hb]
    rfl

theorem comma_inside (hbarrier : IsBarrier stack) (h : a.comma = .ok a') :
    (a.inside stack output).comma = .ok (a'.inside stack output) := by
  obtain ⟨⟨pending, trees⟩, hb, h⟩ := exists_of_bind_eq_ok h
  unfold comma
  rw [applyAll_inside hbarrier hb]
  cases pending with
  | nil => cases h
  | cons p pending =>
      cases p with
      | op | group => cases h
      | call | square =>
          cases h
          rfl

/-- A bracket that closes takes its own arguments. -/
theorem close_inside {head : Head} {label : String} {n : Nat} {pending : List Pending} {trees : List Tree}
    (h : ((combine head label n trees).mapError Failure.error >>= fun trees =>
      pure (⟨pending, trees⟩ : Arrangement)) = .ok a') (stack : List Pending) (output : List Tree) :
    ((combine head label n (trees ++ output)).mapError Failure.error >>= fun trees =>
      pure ⟨pending.map (Pending.shift output.length) ++ stack, trees⟩) = .ok (a'.inside stack output) := by
  obtain ⟨trees', hcombine, h⟩ := exists_of_bind_eq_ok h
  cases h
  rw [combine_inside (eq_ok_of_mapError hcombine)]
  rfl

theorem closeRound_inside (hbarrier : IsBarrier stack) (h : a.closeRound = .ok a') :
    (a.inside stack output).closeRound = .ok (a'.inside stack output) := by
  obtain ⟨⟨pending, trees⟩, hb, h⟩ := exists_of_bind_eq_ok h
  unfold closeRound
  rw [applyAll_inside hbarrier (eq_ok_of_mapError hb)]
  cases pending with
  | nil => cases h
  | cons p pending =>
      cases p with
      | op | square => cases h
      | group =>
          cases h
          rfl
      | call name start commas =>
          have hclose := close_inside (n := argumentCount start commas trees) h stack output
          rw [← argumentCount_inside start commas trees output] at hclose
          exact hclose

theorem closeSquare_inside (hbarrier : IsBarrier stack) (h : a.closeSquare = .ok a') :
    (a.inside stack output).closeSquare = .ok (a'.inside stack output) := by
  obtain ⟨⟨pending, trees⟩, hb, h⟩ := exists_of_bind_eq_ok h
  unfold closeSquare
  rw [applyAll_inside hbarrier (eq_ok_of_mapError hb)]
  cases pending with
  | nil => cases h
  | cons p pending =>
      cases p with
      | op | group | call => cases h
      | square isIndex start commas =>
          cases isIndex with
          | false =>
              have hclose := close_inside (n := argumentCount start commas trees) h stack output
              rw [← argumentCount_inside start commas trees output] at hclose
              exact hclose
          | true =>
              change (if argumentCount start commas trees = 1 then _ else _) = _ at h
              change (if argumentCount (start + output.length) commas (trees ++ output) = 1 then _ else _) = _
              rw [argumentCount_inside]
              split at h
              · rename_i hone
                rw [if_pos hone]
                exact close_inside h stack output
              · cases h

theorem step_inside (hbarrier : IsBarrier stack) {previous' : Option Token}
    (hprevious : previous' = previous ∨ previous = none ∧ startsList previous' = true) {tok : Token}
    (h : a.step previous tok = .ok a') :
    (a.inside stack output).step previous' tok = .ok (a'.inside stack output) := by
  -- only opening brackets ask for the token before
  cases tok with
  | number | text | boolean | name =>
      cases h
      rfl
  | op o =>
      exact congrArg (Except.mapError _) (operator_inside hbarrier (eq_ok_of_mapError h))
  | function name =>
      cases h
      simp [step, inside, Pending.shift]
  | mark m =>
      cases m with
      | comma => exact congrArg (Except.mapError _) (comma_inside hbarrier (eq_ok_of_mapError h))
      | closeRound => exact closeRound_inside hbarrier h
      | closeSquare => exact closeSquare_inside hbarrier h
      | openSquare =>
          have hstarts : startsList previous' = startsList previous := by
            rcases hprevious with rfl | ⟨rfl, hstarts⟩
            · rfl
            · exact hstarts
          cases h
          simp [step, inside, Pending.shift, hstarts]
      | openRound =>
          rcases hprevious with rfl | ⟨rfl, hstarts⟩
          · cases previous' with
            | none =>
                cases h
                rfl
            | some tok => cases tok <;> cases h <;> rfl
          · cases h
            exact Frame.step_openRound hstarts

/-- Tokens are arranged on top of others as on their own. -/
theorem run_inside (hbarrier : IsBarrier stack) {previous' : Option Token}
    (hprevious : previous' = previous ∨ previous = none ∧ startsList previous' = true) {ts : List Token}
    (h : a.run previous ts = .ok a') :
    (a.inside stack output).run previous' ts = .ok (a'.inside stack output) := by
  induction ts generalizing previous previous' a with
  | nil =>
      cases h
      rfl
  | cons tok ts ih =>
      obtain ⟨b, hb, h⟩ := exists_of_bind_eq_ok h
      rw [run_cons_of_step (step_inside hbarrier hprevious hb)]
      -- from the second token on, the tokens before are the same
      exact ih (.inl rfl) h

/-- What is finished on its own is one more value on top of others. -/
theorem applyAll_of_finish (hbarrier : IsBarrier stack) (h : a.finish = .ok (some t)) :
    (a.inside stack output).applyAll = .ok ⟨stack, t :: output⟩ := by
  obtain ⟨⟨pending, trees⟩, hb, h⟩ := exists_of_bind_eq_ok h
  rw [applyAll_inside hbarrier hb]
  cases pending with
  | nil =>
      match trees, h with
      | [t], h =>
          cases h
          rfl
  | cons p pending => cases p <;> cases h

end Arrangement

/-! ### Inside frames -/

namespace Frame

variable {fs : List Frame} {previous : Option Token} {ts : List Token} {t : Tree}

theorem isBarrier_stack (hfs : ∀ f ∈ fs.head?, f.operator? = none) :
    Arrangement.IsBarrier (arrange fs).stack := by
  intro o
  cases fs with
  | nil => exact nofun
  | cons f fs =>
      have hf := hfs f rfl
      cases f with
      | before | between => cases hf
      | group | call | list | index => simp [arrange]

/-- Tokens that have a tree on their own have it directly inside a bracket. -/
theorem run_nested (fs : List Frame) (hfs : ∀ f ∈ fs.head?, f.operator? = none)
    (hprevious : startsList previous = true) (h : Tree.ofTokens (fun _ => false) ts = .ok (some t)) :
    ∃ a, (arrange fs).run previous ts = .ok a ∧ Closes a fs t := by
  obtain ⟨a, hrun, hfinish⟩ := exists_of_bind_eq_ok h
  rw [Tree.withProducts_of_no_variable] at hrun
  have hbarrier := isBarrier_stack hfs
  exact ⟨_, Arrangement.run_inside hbarrier (.inr ⟨rfl, hprevious⟩) hrun,
    Arrangement.applyAll_of_finish hbarrier (eq_ok_of_mapError hfinish)⟩

end Frame

end MathExpr
