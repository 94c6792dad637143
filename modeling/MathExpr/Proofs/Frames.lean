import MathExpr.Proofs.Outcome
import MathExpr.Proofs.Spelling

/-!
# Arrangements as nested frames

While tokens are arranged, the stack and the output only make sense together: an operator
on the stack belongs with the operand on its left, which is in the output, and an open
call with the arguments that are finished. A `Frame` is such a pair, and a list of frames,
innermost first, says what is open around a place where a value is expected
(`Frame.arrange`). Where a value has just ended there are frames and a tree
(`Frame.hold`), or frames, a tree and an operator after it that waits (`Frame.mark`).

What one token does to an arrangement is then what it does to the frames. Operators that
are applied close the innermost frames (`Frame.unwind`).
-/

namespace MathExpr

/-- Something that is open while its last operand is read. -/
inductive Frame where
  | before (o : Operator)
  | between (left : Tree) (o : Operator)
  | group
  | call (name : String) (done : List Tree)
  | list (done : List Tree)
  | index (target : Tree) (done : List Tree)

namespace Frame

/-- The arrangement where a value is expected inside some frames, innermost first. -/
def arrange : List Frame → Arrangement
  | [] => .empty
  | before o :: fs => ⟨.op o :: (arrange fs).stack, (arrange fs).output⟩
  | between l o :: fs => ⟨.op o :: (arrange fs).stack, l :: (arrange fs).output⟩
  | group :: fs => ⟨.group :: (arrange fs).stack, (arrange fs).output⟩
  | call name done :: fs =>
    ⟨.call name (arrange fs).output.length done.length :: (arrange fs).stack,
      done.reverse ++ (arrange fs).output⟩
  | list done :: fs =>
    ⟨.square false (arrange fs).output.length done.length :: (arrange fs).stack,
      done.reverse ++ (arrange fs).output⟩
  | index t done :: fs =>
    ⟨.square true ((arrange fs).output.length + 1) done.length :: (arrange fs).stack,
      done.reverse ++ t :: (arrange fs).output⟩

/-- The arrangement where a value has just ended. -/
def hold (fs : List Frame) (t : Tree) : Arrangement :=
  ⟨(arrange fs).stack, t :: (arrange fs).output⟩

/-- The arrangement where a value has just ended and the operator after it waits. -/
def mark (fs : List Frame) (t : Tree) (o : Operator) : Arrangement :=
  ⟨.op o :: (arrange fs).stack, t :: (arrange fs).output⟩

/-- The operator that waits in a frame. -/
def operator? : Frame → Option Operator
  | before o | between _ o => some o
  | _ => none

/-- Operators in frames have as many operands as their place asks for. -/
def IsProper : Frame → Prop
  | before o => Operator.arity o.symbol = 1
  | between _ o => Operator.arity o.symbol = 2
  | _ => True

/-! ### Applying operators -/

/-- The frames and the tree that are left when the innermost operators have been applied to
the tree for which `isReady` holds. -/
def unwind (isReady : Operator → Bool) : List Frame → Tree → List Frame × Tree
  | before o :: fs, t =>
    if isReady o then unwind isReady fs (.node (.op o) [t]) else (before o :: fs, t)
  | between l o :: fs, t =>
    if isReady o then unwind isReady fs (.node (.op o) [l, t]) else (between l o :: fs, t)
  | fs, t => (fs, t)

variable {isReady : Operator → Bool} {o : Operator} {fs : List Frame}

theorem applyWhile_of_not_ready (h : ¬isReady o = true) (stack : List Pending)
    (output : List Tree) :
    Arrangement.applyWhile isReady (.op o :: stack) output = .ok ⟨.op o :: stack, output⟩ :=
  if_neg h

theorem applyWhile_unary (h : isReady o = true) (ho : Operator.arity o.symbol = 1)
    (stack : List Pending) (t : Tree) (output : List Tree) :
    Arrangement.applyWhile isReady (.op o :: stack) (t :: output) =
      Arrangement.applyWhile isReady stack (.node (.op o) [t] :: output) := by
  have happly : Arrangement.apply o (t :: output) = .ok (.node (.op o) [t] :: output) := by
    unfold Arrangement.apply
    rw [ho]
    exact if_neg (by rw [List.length_cons]; omega)
  refine (if_pos h).trans ?_
  rw [happly]
  rfl

theorem applyWhile_binary (h : isReady o = true) (ho : Operator.arity o.symbol = 2)
    (stack : List Pending) (l r : Tree) (output : List Tree) :
    Arrangement.applyWhile isReady (.op o :: stack) (r :: l :: output) =
      Arrangement.applyWhile isReady stack (.node (.op o) [l, r] :: output) := by
  have happly : Arrangement.apply o (r :: l :: output) = .ok (.node (.op o) [l, r] :: output) := by
    unfold Arrangement.apply
    rw [ho]
    exact if_neg (by rw [List.length_cons, List.length_cons]; omega)
  refine (if_pos h).trans ?_
  rw [happly]
  rfl

theorem applyWhile_hold (h : ∀ f ∈ fs, f.IsProper) (t : Tree) :
    Arrangement.applyWhile isReady (hold fs t).stack (hold fs t).output =
      .ok (hold (unwind isReady fs t).1 (unwind isReady fs t).2) := by
  induction fs generalizing t with
  | nil => rfl
  | cons f fs ih =>
      have ih := ih fun g hg => h g (List.mem_cons_of_mem f hg)
      have hf := h f List.mem_cons_self
      cases f with
      | before o =>
          rw [unwind]
          by_cases ho : isReady o = true
          · rw [if_pos ho, ← ih]
            exact applyWhile_unary ho hf ..
          · rw [if_neg ho]
            exact applyWhile_of_not_ready ho ..
      | between l o =>
          rw [unwind]
          by_cases ho : isReady o = true
          · rw [if_pos ho, ← ih]
            exact applyWhile_binary ho hf ..
          · rw [if_neg ho]
            exact applyWhile_of_not_ready ho ..
      | group | call | list | index => rfl

/-- An operator after a value that is ready is applied first. -/
theorem applyWhile_mark (h : ∀ f ∈ fs, f.IsProper) (t : Tree)
    (ho : Operator.arity o.symbol = 1) (hready : isReady o = true) :
    Arrangement.applyWhile isReady (mark fs t o).stack (mark fs t o).output =
      .ok (hold (unwind isReady fs (.node (.op o) [t])).1
        (unwind isReady fs (.node (.op o) [t])).2) := by
  rw [← applyWhile_hold h]
  exact applyWhile_unary hready ho ..

/-- Where the operator of the innermost frame is not ready, nothing is applied. -/
theorem unwind_eq_self (h : ∀ f ∈ fs.head?, ∀ w, f.operator? = some w → isReady w = false) (t : Tree) :
    unwind isReady fs t = (fs, t) := by
  cases fs with
  | nil => rfl
  | cons f fs =>
      cases f with
      | before w | between _ w => rw [unwind, if_neg (by rw [h _ rfl w rfl]; exact Bool.false_ne_true)]
      | group | call | list | index => rfl

/-- The operator of the innermost frame that is left over is not ready. -/
theorem isReady_unwind (isReady : Operator → Bool) (fs : List Frame) (t : Tree) :
    ∀ f ∈ (unwind isReady fs t).1.head?, ∀ w, f.operator? = some w → isReady w = false := by
  fun_induction unwind isReady fs t with
  | case1 o fs t _ ih | case3 l o fs t _ ih => exact ih
  | case2 o fs t hready | case4 l o fs t hready =>
      rintro f ⟨⟩ w ⟨⟩
      exact Bool.eq_false_iff.2 hready
  | case5 fs t hbefore hbetween =>
      intro f hf w hw
      obtain ⟨gs, rfl⟩ := List.head?_eq_some_iff.1 (Option.mem_def.1 hf)
      cases f with
      | before o => exact (hbefore o gs rfl).elim
      | between l o => exact (hbetween l o gs rfl).elim
      | group | call | list | index => cases hw

/-- Once all operators have been applied, the innermost frame is none of an operator. -/
theorem operator?_unwind_all (fs : List Frame) (t : Tree) :
    ∀ f ∈ (unwind (fun _ => true) fs t).1.head?, f.operator? = none := by
  intro f hf
  refine Option.eq_none_iff_forall_ne_some.2 fun w hw => ?_
  cases isReady_unwind (fun _ => true) fs t f hf w hw

/-! ### What has been read -/

/-- The frames are what some tokens have opened. -/
inductive Opens : List Frame → List Token → Prop
  | nil : Opens [] []
  | before {o : Operator} {fs : List Frame} {ts : List Token} (ho : o.place = .before)
      (harity : Operator.arity o.symbol = 1) (hfs : Opens fs ts) :
      Opens (before o :: fs) (ts ++ [.op o])
  | between {o : Operator} {l : Tree} {fs : List Frame} {ts us : List Token}
      (ho : o.place = .between) (harity : Operator.arity o.symbol = 2) (hfs : Opens fs ts)
      (hl : l.Spells us) : Opens (between l o :: fs) (ts ++ us ++ [.op o])
  | group {fs : List Frame} {ts : List Token} (hfs : Opens fs ts) :
      Opens (group :: fs) (ts ++ [.mark .openRound])
  | call {name : String} {done : List Tree} {fs : List Frame} {ts us : List Token}
      (hfs : Opens fs ts) (hdone : Tree.SpellsEach done us) :
      Opens (call name done :: fs) (ts ++ .function name :: .mark .openRound :: us)
  | list {done : List Tree} {fs : List Frame} {ts us : List Token} (hfs : Opens fs ts)
      (hdone : Tree.SpellsEach done us) :
      Opens (list done :: fs) (ts ++ .mark .openSquare :: us)
  | index {t : Tree} {done : List Tree} {fs : List Frame} {ts us vs : List Token}
      (hfs : Opens fs ts) (ht : t.Spells vs) (hdone : Tree.SpellsEach done us) :
      Opens (index t done :: fs) (ts ++ vs ++ .mark .openSquare :: us)

theorem Opens.isProper {ts : List Token} (h : Opens fs ts) : ∀ f ∈ fs, f.IsProper := by
  induction h with
  | nil => exact List.forall_mem_nil _
  | before _ harity _ ih | between _ harity _ _ ih => exact List.forall_mem_cons.2 ⟨harity, ih⟩
  | group _ ih | call _ _ ih | list _ _ ih | index _ _ _ ih =>
      exact List.forall_mem_cons.2 ⟨trivial, ih⟩

/-- Applying operators changes nothing about what has been read. -/
theorem Opens.unwind {t : Tree} {ts us : List Token} (h : Opens fs ts) (ht : t.Spells us)
    (isReady : Operator → Bool) :
    ∃ ts' us', Opens (unwind isReady fs t).1 ts' ∧ (unwind isReady fs t).2.Spells us' ∧
      ts' ++ us' = ts ++ us := by
  fun_induction Frame.unwind isReady fs t generalizing ts us with
  | case1 o fs t _ ih =>
      cases h with
      | before ho _ hfs => simpa using ih hfs (.before ho ht)
  | case3 l o fs t _ ih =>
      cases h with
      | between ho _ hfs hl => simpa using ih hfs (.between ho hl ht)
  | case2 | case4 | case5 => exact ⟨ts, us, h, ht, rfl⟩

/-! ### One more token -/

variable {previous : Option Token} {t : Tree}

theorem step_before (ho : o.place = .before) :
    (arrange fs).step previous (.op o) = .ok (arrange (before o :: fs)) := by
  show (Arrangement.operator o (arrange fs)).mapError Failure.error = _
  rw [Arrangement.operator, if_pos ho]
  rfl

theorem step_openRound {a : Arrangement} (h : Arrangement.startsList previous = true) :
    a.step previous (.mark .openRound) = .ok ⟨.group :: a.stack, a.output⟩ := by
  cases previous with
  | none => rfl
  | some t =>
      cases t with
      | function => cases h
      | _ => rfl

theorem step_openSquare {a : Arrangement} {isList : Bool}
    (h : Arrangement.startsList previous = isList) :
    a.step previous (.mark .openSquare) =
      .ok ⟨.square (!isList) a.output.length 0 :: a.stack, a.output⟩ := by
  rw [← h]
  rfl

/-- An operator that is not written before its operand takes the place of those that yield
to it. -/
theorem step_operator {a : Arrangement} (ho : o.place ≠ .before)
    (ha : Arrangement.applyWhile (Arrangement.yieldsTo o) a.stack a.output = .ok (hold fs t)) :
    a.step previous (.op o) = .ok (mark fs t o) := by
  show (Arrangement.operator o a).mapError Failure.error = _
  rw [Arrangement.operator, if_neg ho, ha]
  rfl

/-- Where the operator has two operands, a value is expected next. -/
theorem mark_eq_arrange (fs : List Frame) (t : Tree) (o : Operator) :
    mark fs t o = arrange (between t o :: fs) := rfl

/-- An arrangement with all operators applied is one with a value that has ended inside the
innermost bracket. -/
abbrev Closes (a : Arrangement) (fs : List Frame) (t : Tree) : Prop :=
  a.applyAll = .ok (hold fs t)

theorem closes_hold (h : ∀ f ∈ fs, f.IsProper) (t : Tree) :
    Closes (hold fs t) (unwind (fun _ => true) fs t).1 (unwind (fun _ => true) fs t).2 :=
  applyWhile_hold h t

theorem closes_mark (h : ∀ f ∈ fs, f.IsProper) (t : Tree)
    (ho : Operator.arity o.symbol = 1) :
    Closes (mark fs t o) (unwind (fun _ => true) fs (.node (.op o) [t])).1
      (unwind (fun _ => true) fs (.node (.op o) [t])).2 :=
  applyWhile_mark h t ho rfl

theorem finish_of_closes {a : Arrangement} (ha : Closes a [] t) : a.finish = .ok (some t) := by
  unfold Arrangement.finish
  rw [ha]
  rfl

/-! ### Closing brackets -/

section

variable {a : Arrangement} {name : String} {done : List Tree} {target : Tree}

/-- The arguments of a bracket are what has been finished inside it. -/
theorem combine_finished (head : Head) (label : String) (t : Tree) (done output : List Tree) :
    Arrangement.combine head label (done.length + 1) (t :: (done.reverse ++ output)) =
      .ok (.node head (done ++ [t]) :: output) := by
  have hlength : ¬(t :: (done.reverse ++ output)).length < done.length + 1 := by
    simp only [List.length_cons, List.length_append, List.length_reverse]
    omega
  have htake : (t :: (done.reverse ++ output)).take (done.length + 1) = t :: done.reverse := by
    rw [List.take_succ_cons, List.take_append_of_le_length (by simp), List.take_of_length_le]
    simp
  have hdrop : (t :: (done.reverse ++ output)).drop (done.length + 1) = output := by
    rw [List.drop_succ_cons, List.drop_append_of_le_length (by simp), List.drop_of_length_le]
    · rfl
    · simp
  rw [Arrangement.combine, if_neg hlength, htake, hdrop, List.reverse_cons, List.reverse_reverse]

/-- A value counts as one argument more than there are commas. -/
theorem argumentCount_finished (t : Tree) (done output : List Tree) :
    Arrangement.argumentCount output.length done.length (t :: (done.reverse ++ output)) =
      done.length + 1 := by
  rw [Arrangement.argumentCount, if_pos]
  simp only [List.length_cons, List.length_append, List.length_reverse]
  omega

theorem closeRound_group (h : Closes a (group :: fs) t) : a.closeRound = .ok (hold fs t) := by
  unfold Arrangement.closeRound
  rw [h]
  rfl

theorem closeRound_call (h : Closes a (call name done :: fs) t) :
    a.closeRound = .ok (hold fs
      (.node (.call (Operator.canonicalFunction name (Text.lower name))) (done ++ [t]))) := by
  unfold Arrangement.closeRound
  rw [h]
  show ((Arrangement.combine _ _ (Arrangement.argumentCount (arrange fs).output.length done.length
    (t :: (done.reverse ++ (arrange fs).output))) (t :: (done.reverse ++ (arrange fs).output))).mapError
    Failure.error >>= _) = _
  rw [argumentCount_finished, combine_finished]
  rfl

/-- A call without arguments. -/
theorem closeRound_call_empty (fs : List Frame) (name : String) :
    (arrange (call name [] :: fs)).closeRound =
      .ok (hold fs (.node (.call (Operator.canonicalFunction name (Text.lower name))) [])) := by
  have hcount : Arrangement.argumentCount (arrange fs).output.length 0 (arrange fs).output = 0 :=
    if_neg (Nat.lt_irrefl _)
  show ((Arrangement.combine _ _ (Arrangement.argumentCount (arrange fs).output.length 0
    (arrange fs).output) _).mapError Failure.error >>= _) = _
  rw [hcount]
  rfl

theorem closeSquare_list (h : Closes a (list done :: fs) t) :
    a.closeSquare = .ok (hold fs (.node .list (done ++ [t]))) := by
  unfold Arrangement.closeSquare
  rw [h]
  show ((Arrangement.combine _ _ (Arrangement.argumentCount (arrange fs).output.length done.length
    (t :: (done.reverse ++ (arrange fs).output))) (t :: (done.reverse ++ (arrange fs).output))).mapError
    Failure.error >>= _) = _
  rw [argumentCount_finished, combine_finished]
  rfl

/-- A list without elements. -/
theorem closeSquare_list_empty (fs : List Frame) :
    (arrange (list [] :: fs)).closeSquare = .ok (hold fs (.node .list [])) := by
  have hcount : Arrangement.argumentCount (arrange fs).output.length 0 (arrange fs).output = 0 :=
    if_neg (Nat.lt_irrefl _)
  show ((Arrangement.combine _ _ (Arrangement.argumentCount (arrange fs).output.length 0
    (arrange fs).output) _).mapError Failure.error >>= _) = _
  rw [hcount]
  rfl

/-- A subscript has one argument. -/
theorem closeSquare_index (h : Closes a (index target done :: fs) t) :
    a.closeSquare =
      if done.length = 0 then .ok (hold fs (.node (.call "listval") [target, t]))
      else .error (.error (.indexCount (done.length + 1))) := by
  have hcount := argumentCount_finished t done (target :: (arrange fs).output)
  rw [List.length_cons] at hcount
  unfold Arrangement.closeSquare
  rw [h]
  show (if Arrangement.argumentCount ((arrange fs).output.length + 1) done.length
      (t :: (done.reverse ++ target :: (arrange fs).output)) = 1 then _ else
    Except.error (Failure.error (.indexCount (Arrangement.argumentCount ((arrange fs).output.length + 1)
      done.length (t :: (done.reverse ++ target :: (arrange fs).output)))))) = _
  rw [hcount]
  cases done with
  | nil => rfl
  | cons u done => rfl

theorem comma_call (h : Closes a (call name done :: fs) t) :
    a.comma = .ok (arrange (call name (done ++ [t]) :: fs)) := by
  unfold Arrangement.comma
  rw [h, arrange, List.length_append, List.reverse_append]
  rfl

theorem comma_list (h : Closes a (list done :: fs) t) :
    a.comma = .ok (arrange (list (done ++ [t]) :: fs)) := by
  unfold Arrangement.comma
  rw [h, arrange, List.length_append, List.reverse_append]
  rfl

theorem comma_index (h : Closes a (index target done :: fs) t) :
    a.comma = .ok (arrange (index target (done ++ [t]) :: fs)) := by
  unfold Arrangement.comma
  rw [h, arrange, List.length_append, List.reverse_append]
  rfl

end

end Frame

end MathExpr
