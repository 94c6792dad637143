import MathExpr.Proofs.Overloads

/-!
# Slices

A list, a text or a vector with a range as its subscript gives the part of it that stands from the one bound
of the range up to the other, where a negative bound counts from the end (`Scope.eval_slice`).

A bound that counts from the end and still lies before the start is counted from the end once more
(`Primitive.sliceOf_eq`), so that it is cut off only if it then still lies before the start. What holds of all
other bounds does not hold of such a bound (`Scope.not_eval_slice`).
-/

namespace MathExpr

namespace Slice

variable {α : Type}

/-- The place that a bound means in a sequence of a size, counted from the start. -/
def place (size : Nat) (bound : Int) : Int := if bound < 0 then bound + size else bound

/-- The elements whose index is not below one place, and below another. -/
def between (items : List α) (lower upper : Int) : List α :=
  (items.zipIdx.filter fun p =>
    decide (max 0 lower ≤ p.2 ∧ p.2 < min (items.length : Int) upper)).map Prod.fst

/-- Counting a bound from the end a second time does not bring it back into a sequence of a size. -/
def CountsOnce (size : Nat) (bound : Int) : Prop := ¬(-(2 * size : Int) < bound ∧ bound < -size)

theorem drop_take_eq_filter (items : List α) (i j start : Nat) :
    (items.take (j - start)).drop (i - start) =
      ((items.zipIdx start).filter fun p => decide (i ≤ p.2 ∧ p.2 < j)).map Prod.fst := by
  induction items generalizing start with
  | nil => simp
  | cons a items ih =>
      rw [List.zipIdx_cons, List.filter_cons]
      have ih := ih (start + 1)
      by_cases hj : start < j
      · rw [show j - start = (j - (start + 1)) + 1 by omega, List.take_succ_cons]
        by_cases hi : i ≤ start
        · rw [if_pos (by simp [hi, hj]), List.map_cons, ← ih, show i - start = 0 by omega,
            show i - (start + 1) = 0 by omega, List.drop_zero, List.drop_zero]
        · rw [if_neg (by simp [hi]), ← ih, show i - start = (i - (start + 1)) + 1 by omega,
            List.drop_succ_cons]
      · rw [if_neg (by simp [hj]), ← ih, show j - start = 0 by omega, show j - (start + 1) = 0 by omega,
          List.take_zero, List.take_zero, List.drop_nil, List.drop_nil]

/-- The elements between two places are those that are left if the others are cut off. -/
theorem between_eq (items : List α) (lower upper : Int) :
    between items lower upper = (items.take upper.toNat).drop lower.toNat := by
  have hdrop := drop_take_eq_filter items lower.toNat upper.toNat 0
  rw [Nat.sub_zero, Nat.sub_zero] at hdrop
  rw [hdrop, between]
  refine congrArg (List.map Prod.fst) (List.filter_congr fun p hp => decide_eq_decide.2 ?_)
  have hlt := List.snd_lt_of_mem_zipIdx hp
  omega

/-- What lies outside does not matter. -/
theorem between_congr {items : List α} {lower upper lower' upper' : Int} (hlower : max 0 lower = max 0 lower')
    (hupper : max 0 (min (items.length : Int) upper) = max 0 (min (items.length : Int) upper')) :
    between items lower upper = between items lower' upper' := by
  unfold between
  refine congrArg (List.map Prod.fst) (List.filter_congr fun p _ => decide_eq_decide.2 ?_)
  rw [hlower]
  omega

/-- Of a bound that counts once, the place that is counted from the end again is cut off in the same way. -/
theorem max_place_place {size : Nat} {bound : Int} (h : CountsOnce size bound) :
    max 0 (place size (place size bound)) = max 0 (place size bound) := by
  unfold CountsOnce at h
  unfold place
  split_ifs <;> omega

theorem max_min_place_place {size : Nat} {bound : Int} (h : CountsOnce size bound) :
    max 0 (min (size : Int) (place size (place size bound))) =
      max 0 (min (size : Int) (place size bound)) := by
  have hplace := max_place_place h
  omega

end Slice

/-! ### Sequences -/

namespace Primitive

open Slice (place between CountsOnce between_eq between_congr max_place_place max_min_place_place)

variable {α : Type} {r : Range} {a b : Int}

theorem sliceBound_eq (bound : Int) (size : Nat) :
    sliceBound bound size = Nat.min (place size (place size bound)).toNat size := rfl

/-- A slice stands between the places that its bounds mean if they are counted from the end twice. -/
theorem sliceOf_eq (ha : Real.truncInt r.start = .ok a) (hb : Real.truncInt r.stop = .ok b) (items : List α) :
    sliceOf r items = .ok (between items (place items.length (place items.length a))
      (place items.length (place items.length b))) := by
  have htake (n : Nat) : items.take (Nat.min n items.length) = items.take n :=
    List.take_eq_take_iff.2 (Nat.min_assoc n _ _ |>.trans (by rw [Nat.min_self]))
  have hdrop (n : Nat) (rest : List α) (hrest : rest.length ≤ items.length) :
      rest.drop (Nat.min n items.length) = rest.drop n :=
    List.drop_eq_drop_iff.2 ((Nat.min_assoc n _ _).trans (by rw [Nat.min_eq_right hrest]))
  unfold sliceOf
  rw [ha, hb]
  change Except.ok ((items.take (sliceBound b items.length)).drop (sliceBound a items.length)) = _
  rw [sliceBound_eq, sliceBound_eq, htake, hdrop _ _ (List.length_take_le' _ _), between_eq]

/-- A slice stands between the places that its bounds mean. -/
theorem sliceOf_of_countsOnce (ha : Real.truncInt r.start = .ok a) (hb : Real.truncInt r.stop = .ok b)
    {items : List α} (honce : CountsOnce items.length a) (honce' : CountsOnce items.length b) :
    sliceOf r items = .ok (between items (place items.length a) (place items.length b)) := by
  rw [sliceOf_eq ha hb]
  exact congrArg Except.ok (between_congr (max_place_place honce) (max_min_place_place honce'))

end Primitive

/-! ### Subscripts -/

namespace Scope

open MathExpr.Action (runFrom)
open Slice (place between CountsOnce)

variable {s : Scope} {t u : Tree} {r : Range} {a b : Int} {d d' d'' : Draws}

theorem body?_listval : ∀ kind ∈ ["list", "string", "vector"],
    Library.body? "listval" [kind, "range"] = some (.builtin .slice) := by
  unfold Library.body?
  simp only [Library.filter_lower_name, List.forall_mem_cons]
  exact ⟨rfl, rfl, rfl, nofun⟩

/-- A range as a subscript takes a slice. -/
theorem eval_listval (hs : Library.scope.signatures "listval" <+: s.signatures "listval") {v : Value}
    (hv : v.kind ∈ ["list", "string", "vector"]) (ht : runFrom (s.eval t) d = (.ok v, d'))
    (hu : runFrom (s.eval u) d' = (.ok (.range r), d'')) :
    runFrom (s.eval (.node (.call "listval") [t, u])) d = (Primitive.sliceValue v r, d'') := by
  have hname : Head.name? (.call "listval") = some "listval" := by decide +kernel
  have hkey : (Head.call "listval").key?.bind Construct.ofName? = none := by decide +kernel
  have hbody : Library.body? "listval" ([v, .range r].map Value.kind) = some (.builtin .slice) :=
    body?_listval v.kind hv
  unfold eval at ht hu ⊢
  rw [Evaluate.tree, hname]
  dsimp only
  rw [hkey]
  dsimp only
  rw [Evaluate.trees, Evaluate.trees, Evaluate.trees]
  simp only [Action.runFrom_bind, ht, hu, Action.runFrom_pure]
  rw [Evaluate.dispatch_of_isPrefix hs hbody]
  rfl

/-- A list, a text or a vector with a range as its subscript is the part of it whose places are not below the
first bound, and below the second. -/
theorem eval_slice (hs : Library.scope.signatures "listval" <+: s.signatures "listval")
    (hu : runFrom (s.eval u) d' = (.ok (.range r), d''))
    (ha : Real.truncInt r.start = .ok a) (hb : Real.truncInt r.stop = .ok b) :
    (∀ items, runFrom (s.eval t) d = (.ok (.list items), d') →
      CountsOnce items.length a → CountsOnce items.length b →
      runFrom (s.eval (.node (.call "listval") [t, u])) d =
        (.ok (.list (between items (place items.length a) (place items.length b))), d'')) ∧
    (∀ text safe latex, runFrom (s.eval t) d = (.ok (.text text safe latex), d') →
      CountsOnce text.length a → CountsOnce text.length b →
      runFrom (s.eval (.node (.call "listval") [t, u])) d =
        (.ok (.plainText (String.ofList
          (between text.toList (place text.length a) (place text.length b)))), d'')) ∧
    ∀ entries, runFrom (s.eval t) d = (.ok (.vector entries), d') →
      CountsOnce entries.length a → CountsOnce entries.length b →
      runFrom (s.eval (.node (.call "listval") [t, u])) d =
        (.ok (.vector (between entries (place entries.length a) (place entries.length b))), d'') := by
  refine ⟨fun items ht honce honce' => ?_, fun text safe latex ht honce honce' => ?_,
    fun entries ht honce honce' => ?_⟩
  · rw [eval_listval hs (by simp [Value.kind]) ht hu, Primitive.sliceValue,
      Primitive.sliceOf_of_countsOnce ha hb honce honce']
    rfl
  · rw [← String.length_toList] at honce honce' ⊢
    rw [eval_listval hs (by simp [Value.kind]) ht hu, Primitive.sliceValue,
      Primitive.sliceOf_of_countsOnce ha hb honce honce']
    rfl
  · rw [eval_listval hs (by simp [Value.kind]) ht hu, Primitive.sliceValue,
      Primitive.sliceOf_of_countsOnce ha hb honce honce']
    rfl

/-- The bound -6 lies before the start of three elements and is cut off; it lies inside eight characters and
seven entries. -/
theorem eval_slice_negative :
    runFrom (Library.scope.eval (.node (.call "listval")
        [.leaf (.list [.nat 1, .nat 2, .nat 3]), .leaf (.range ⟨-6.0, -1.0, 1.0⟩)])) .default =
      (.ok (.list [.nat 1, .nat 2]), .default) ∧
    runFrom (Library.scope.eval (.node (.call "listval")
        [.leaf (.text "abcdefgh" true false), .leaf (.range ⟨-6.0, -1.0, 1.0⟩)])) .default =
      (.ok (.plainText "cdefg"), .default) ∧
    runFrom (Library.scope.eval (.node (.call "listval")
        [.leaf (.vector [1.0, 2.0, 3.0, 4.0, 5.0, 6.0, 7.0]), .leaf (.range ⟨-6.0, -1.0, 1.0⟩)])) .default =
      (.ok (.vector [2.0, 3.0, 4.0, 5.0, 6.0]), .default) := by
  have ha : Real.truncInt (-6.0) = .ok (-6) := by decide +kernel
  have hb : Real.truncInt (-1.0) = .ok (-1) := by decide +kernel
  have hrange : runFrom (Library.scope.eval (.leaf (.range ⟨-6.0, -1.0, 1.0⟩))) .default =
      (.ok (.range ⟨-6.0, -1.0, 1.0⟩), .default) := rfl
  have honce : ∀ size ∈ [3, 7, 8], CountsOnce size (-6) ∧ CountsOnce size (-1) := by
    unfold CountsOnce
    decide
  simp only [List.forall_mem_cons] at honce
  obtain ⟨⟨h3, h3'⟩, ⟨h7, h7'⟩, ⟨h8, h8'⟩, -⟩ := honce
  refine ⟨?_, ?_, ?_⟩
  · exact (eval_slice List.prefix_rfl hrange ha hb).1 [.nat 1, .nat 2, .nat 3] rfl h3 h3'
  · have htext : String.ofList (between "abcdefgh".toList (place 8 (-6)) (place 8 (-1))) = "cdefg" := by
      decide +kernel
    rw [← htext]
    exact (eval_slice List.prefix_rfl hrange ha hb).2.1 "abcdefgh" true false rfl h8 h8'
  · exact (eval_slice List.prefix_rfl hrange ha hb).2.2 [1.0, 2.0, 3.0, 4.0, 5.0, 6.0, 7.0] rfl h7 h7'

/-- Not every bound counts from the end once: of three elements the fourth last is taken for the last. -/
theorem not_eval_slice :
    ¬∀ (items : List Value) (r : Range) (a b : Int),
      Real.truncInt r.start = .ok a → Real.truncInt r.stop = .ok b →
      runFrom (Library.scope.eval (.node (.call "listval") [.leaf (.list items), .leaf (.range r)]))
        .default = (.ok (.list (between items (place items.length a) (place items.length b))), .default) := by
  intro h
  have ha : Real.truncInt (-4.0) = .ok (-4) := by decide +kernel
  have hb : Real.truncInt 3.0 = .ok 3 := by decide +kernel
  have hall := h [.nat 1, .nat 2, .nat 3] ⟨-4.0, 3.0, 1.0⟩ (-4) 3 ha hb
  rw [eval_listval List.prefix_rfl (by simp [Value.kind]) rfl rfl, Primitive.sliceValue,
    Primitive.sliceOf_eq ha hb] at hall
  injection hall with hall
  injection hall with hall
  injection hall with hall
  exact absurd (congrArg List.length hall) (by decide)

end Scope

end MathExpr
