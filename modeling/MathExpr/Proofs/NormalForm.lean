import MathExpr.Proofs.BuiltIn
import MathExpr.Proofs.FunctionNames
import MathExpr.Proofs.Quiet
import MathExpr.Proofs.Rewriting

/-!
# Simplification reaches a normal form

Simplification is recursive: it works on the arguments of a node, then on the node, and
on the result of each firing all over again. Seen from outside it does one thing after
the other. `Simplify.next` finds the place where a rule fires next, the first one from
the left and from the inside, and `Simplify.iterate` lets a rule fire there as often as
is allowed. `Ruleset.runFrom_simplifyTracing` says that the two are the same, as long as
no application of a rule draws random numbers; from it follow when the limit is
exceeded, that no rule applies to a result any more, and that a result is simplified
to itself.

The two are compared phase by phase: `iterate` on a node is `iterate` on its arguments
and then `iterate` on the node with settled arguments (`iterate_two_phases`), and
`Performs` says of a recursive action which part of the iteration it stands for.
-/

namespace MathExpr

open MathExpr.Action (runFrom)

namespace Simplify

/-- That a rule fires: the part of the tree at which it does, and what it turns it into. -/
structure Event where
  rule : Rule
  before : Tree
  after : Tree

/-- The note that is kept of a firing. -/
def Event.note (e : Event) : Outcome Firing := do
  return ⟨e.rule.name, ← (e.before.source {}).mapError .fault, ← (e.after.source {}).mapError .fault⟩

/-- The first rule that applies to a tree as a whole. -/
def firstHere (s : Scope) (rules : List Rule) (t : Tree) : Outcome (Option (Event × Tree)) :=
  (runFrom (firstToApply s t rules) .default).1.map <|
    Option.map fun p => (⟨p.1, t, p.2⟩, p.2)

mutual

/-- The firing that comes next in a tree, and the tree after it; nothing if no rule applies
to any part. -/
def next (s : Scope) (rules : List Rule) : Tree → Outcome (Option (Event × Tree))
  | .leaf v => firstHere s rules (.leaf v)
  | .node h args => do
    match ← nextAll s rules args with
    | some (e, args) => return some (e, .node h args)
    | none => firstHere s rules (.node h args)

/-- The firing that comes next in the trees of a list. -/
def nextAll (s : Scope) (rules : List Rule) : List Tree → Outcome (Option (Event × List Tree))
  | [] => .ok none
  | t :: ts => do
    match ← next s rules t with
    | some (e, u) => return some (e, u :: ts)
    | none => return (← nextAll s rules ts).map fun p => (p.1, t :: p.2)

end

/-- What is left when no firing comes next any more, and the notes of the firings, of which
there are at most `n`: one more is an error. -/
def iterate {α : Type} (next : α → Outcome (Option (Event × α))) (limit : Int) :
    (n : Nat) → α → Outcome (α × List Firing)
  | n, a => do
    match ← next a with
    | none => return (a, [])
    | some (e, b) =>
      match n with
      | 0 => .error (.error (.tooManySteps limit))
      | n + 1 =>
        let firing ← e.note
        let r ← iterate next limit n b
        return (r.1, firing :: r.2)

section

variable {α β : Type} {next₁ : α → Outcome (Option (Event × α))}
  {next₂ : β → Outcome (Option (Event × β))} {limit : Int} {n : Nat} {a : α}

theorem iterate_none (h : next₁ a = .ok none) : iterate next₁ limit n a = .ok (a, []) := by
  unfold iterate
  rw [h]
  rfl

theorem iterate_error {e : Failure} (h : next₁ a = .error e) :
    iterate next₁ limit n a = .error e := by
  unfold iterate
  rw [h]
  rfl

theorem iterate_zero {e : Event} {b : α} (h : next₁ a = .ok (some (e, b))) :
    iterate next₁ limit 0 a = .error (.error (.tooManySteps limit)) := by
  unfold iterate
  rw [h]
  rfl

theorem iterate_succ {e : Event} {b : α} (h : next₁ a = .ok (some (e, b))) :
    iterate next₁ limit (n + 1) a = do
      let firing ← e.note
      let r ← iterate next₁ limit n b
      return (r.1, firing :: r.2) := by
  rw [iterate, h]
  rfl

/-- An iteration with a result has nothing to do, or lets a rule fire and goes on. -/
theorem iterate_cases {r : α × List Firing} (h : iterate next₁ limit n a = .ok r) :
    (next₁ a = .ok none ∧ r = (a, [])) ∨
      ∃ m e b firing r', n = m + 1 ∧ next₁ a = .ok (some (e, b)) ∧ e.note = .ok firing ∧
        iterate next₁ limit m b = .ok r' ∧ r = (r'.1, firing :: r'.2) := by
  rcases hnext : next₁ a with x | o
  · rw [iterate_error hnext] at h
    cases h
  · rcases o with _ | ⟨e, b⟩
    · rw [iterate_none hnext] at h
      cases h
      exact .inl ⟨rfl, rfl⟩
    · cases n with
      | zero =>
          rw [iterate_zero hnext] at h
          cases h
      | succ m =>
          rw [iterate_succ hnext] at h
          rcases hnote : e.note with x | firing
          · rw [hnote] at h
            cases h
          · rw [hnote] at h
            rcases hrest : iterate next₁ limit m b with x | r'
            · simp only [hrest] at h
              cases h
            · simp only [hrest] at h
              cases h
              exact .inr ⟨m, e, b, firing, r', rfl, rfl, hnote, hrest, rfl⟩

/-- Where an iteration ends, no firing comes next, and there have been at most `n`. -/
theorem iterate_eq_ok {r : α × List Firing} (h : iterate next₁ limit n a = .ok r) :
    next₁ r.1 = .ok none ∧ r.2.length ≤ n := by
  induction n generalizing a r with
  | zero =>
      rcases iterate_cases h with ⟨hnext, rfl⟩ | ⟨m, _, _, _, _, hm, -⟩
      · exact ⟨hnext, Nat.le_refl 0⟩
      · cases hm
  | succ n ih =>
      rcases iterate_cases h with ⟨hnext, rfl⟩ | ⟨m, e, b, firing, r', hm, -, -, hrest, rfl⟩
      · exact ⟨hnext, Nat.zero_le _⟩
      · cases hm
        obtain ⟨hnext, hlength⟩ := ih hrest
        exact ⟨hnext, Nat.succ_le_succ hlength⟩

/-- What holds of every firing that comes next holds of an iteration. -/
theorem iterate_rel {P : α → α → Prop} (hrefl : ∀ a, P a a)
    (hstep : ∀ a e b c, next₁ a = .ok (some (e, b)) → P b c → P a c) {r : α × List Firing}
    (h : iterate next₁ limit n a = .ok r) : P a r.1 := by
  induction n generalizing a r with
  | zero =>
      rcases iterate_cases h with ⟨-, rfl⟩ | ⟨m, _, _, _, _, hm, -⟩
      · exact hrefl a
      · cases hm
  | succ n ih =>
      rcases iterate_cases h with ⟨-, rfl⟩ | ⟨m, e, b, firing, r', hm, hnext, -, hrest, rfl⟩
      · exact hrefl a
      · cases hm
        have hP := ih hrest
        exact hstep a e b _ hnext hP

/-- An iteration goes on inside a context `C` until nothing is left to do there, and then
outside. -/
theorem iterate_two_phases {C : α → β}
    (h : ∀ a p, next₁ a = .ok (some p) → next₂ (C a) = .ok (some (p.1, C p.2)))
    (herror : ∀ a e, next₁ a = .error e → next₂ (C a) = .error e) :
    iterate next₂ limit n (C a) = do
      let r ← iterate next₁ limit n a
      let q ← iterate next₂ limit (n - r.2.length) (C r.1)
      return (q.1, r.2 ++ q.2) := by
  induction n generalizing a with
  | zero =>
      rcases hnext : next₁ a with e | o
      · rw [iterate_error hnext, iterate_error (herror a e hnext)]
        rfl
      · rcases o with _ | ⟨e, b⟩
        · rw [iterate_none hnext]
          show _ = (iterate next₂ limit 0 (C a)).bind fun q => .ok (q.1, [] ++ q.2)
          rcases iterate next₂ limit 0 (C a) with x | q <;> rfl
        · rw [iterate_zero hnext, iterate_zero (h a _ hnext)]
          rfl
  | succ n ih =>
      rcases hnext : next₁ a with e | o
      · rw [iterate_error hnext, iterate_error (herror a e hnext)]
        rfl
      · rcases o with _ | ⟨e, b⟩
        · rw [iterate_none hnext]
          show _ = (iterate next₂ limit (n + 1) (C a)).bind fun q => .ok (q.1, [] ++ q.2)
          rcases iterate next₂ limit (n + 1) (C a) with x | q <;> rfl
        · rw [iterate_succ hnext, iterate_succ (h a _ hnext), ih]
          rcases e.note with x | firing
          · rfl
          · rcases iterate next₁ limit n b with x | r
            · rfl
            · show (do let q ← (do let q ← iterate next₂ limit (n - r.2.length) (C r.1)
                                   return (q.1, r.2 ++ q.2))
                       return (q.1, firing :: q.2)) =
                (do let q ← iterate next₂ limit (n + 1 - (r.2.length + 1)) (C r.1)
                    return (q.1, firing :: r.2 ++ q.2))
              rw [Nat.add_sub_add_right]
              rcases iterate next₂ limit (n - r.2.length) (C r.1) with x | q <;> rfl

end

/-! ### Applications that draw nothing -/

/-- No rule draws random numbers when it is applied to a tree as a whole. -/
def IsSteady (s : Scope) (rules : List Rule) (t : Tree) : Prop :=
  ∀ r ∈ rules, (r.transform s t).DrawsNothing

/-- No rule draws random numbers when it is applied to any part of what is derived from a
tree. -/
def StaysSteady (s : Scope) (rules : List Rule) (t : Tree) : Prop :=
  ∀ u, Derives s rules t u → ∀ v ∈ u.subtrees, IsSteady s rules v

variable {s : Scope} {rules : List Rule} {t u : Tree}

theorem StaysSteady.isSteady (h : StaysSteady s rules t) : IsSteady s rules t :=
  h t .refl t (Tree.mem_subtrees_self t)

theorem StaysSteady.of_derives (h : StaysSteady s rules t) (htu : Derives s rules t u) :
    StaysSteady s rules u :=
  fun v huv => h v (htu.trans huv)

theorem StaysSteady.of_mem {h : Head} {args : List Tree} (hs : StaysSteady s rules (.node h args))
    (ht : t ∈ args) : StaysSteady s rules t := by
  intro u htu v hv
  obtain ⟨before, after, rfl⟩ := List.append_of_mem ht
  exact hs _ (htu.argument h before after) v
    (Tree.subtrees_of_mem (List.mem_append_right before List.mem_cons_self) hv)

/-- In a scope without random functions nothing is drawn. -/
theorem staysSteady_of_isQuiet (hs : s.IsQuiet) (rules : List Rule) (t : Tree) :
    StaysSteady s rules t :=
  fun _ _ v _ r _ => r.drawsNothing_transform hs v

/-- The first rule that applies to a steady tree does not depend on the random numbers. -/
theorem runFrom_firstToApply {rs : List Rule} (h : ∀ r ∈ rs, (r.transform s t).DrawsNothing)
    (d : Draws) :
    runFrom (firstToApply s t rs) d = ((runFrom (firstToApply s t rs) .default).1, d) := by
  induction rs with
  | nil => rfl
  | cons r rs ih =>
      obtain ⟨x, hx⟩ := h r List.mem_cons_self
      have ih := ih fun q hq => h q (List.mem_cons_of_mem r hq)
      unfold firstToApply
      rw [Action.runFrom_bind, Action.runFrom_bind, hx, hx]
      rcases x with e | o
      · rfl
      · rcases o with _ | u
        · exact ih
        · rfl

/-- A rule that fires on a tree gives what comes next, and rewrites the tree. -/
theorem derives_of_firstHere {e : Event} (h : firstHere s rules t = .ok (some (e, u))) :
    Derives s rules t u := by
  unfold firstHere at h
  rcases hrun : runFrom (firstToApply s t rules) .default with ⟨r, d⟩
  rw [hrun] at h
  rcases r with x | o
  · cases h
  · rcases o with _ | p
    · cases h
    · cases h
      obtain ⟨before, after, _, _, rfl, -, hfires⟩ := (returns_firstToApply t rules _ _ _ hrun).2 _ _ rfl
      exact .single (.head (List.mem_append_right before List.mem_cons_self) hfires)

theorem next_node_of_some {h : Head} {args : List Tree} {p : Event × List Tree}
    (hargs : nextAll s rules args = .ok (some p)) :
    next s rules (.node h args) = .ok (some (p.1, .node h p.2)) := by
  unfold next
  rw [hargs]
  rfl

theorem next_node_of_error {h : Head} {args : List Tree} {e : Failure}
    (hargs : nextAll s rules args = .error e) : next s rules (.node h args) = .error e := by
  unfold next
  rw [hargs]
  rfl

theorem next_node_of_none {h : Head} {args : List Tree} (hargs : nextAll s rules args = .ok none) :
    next s rules (.node h args) = firstHere s rules (.node h args) := by
  unfold next
  rw [hargs]
  rfl

theorem nextAll_cons_of_some {ts : List Tree} {p : Event × Tree}
    (ht : next s rules t = .ok (some p)) :
    nextAll s rules (t :: ts) = .ok (some (p.1, p.2 :: ts)) := by
  unfold nextAll
  rw [ht]
  rfl

theorem nextAll_cons_of_error {ts : List Tree} {e : Failure} (ht : next s rules t = .error e) :
    nextAll s rules (t :: ts) = .error e := by
  unfold nextAll
  rw [ht]
  rfl

theorem nextAll_cons_of_none {ts : List Tree} (ht : next s rules t = .ok none) :
    nextAll s rules (t :: ts) = (nextAll s rules ts).map (Option.map fun p => (p.1, t :: p.2)) := by
  rw [nextAll, ht]
  show (nextAll s rules ts).bind _ = _
  rcases nextAll s rules ts with e | o <;> rfl

mutual

/-- A firing that comes next rewrites the tree. -/
theorem derives_of_next : (t : Tree) → ∀ e u, next s rules t = .ok (some (e, u)) →
    Derives s rules t u
  | .leaf v, e, u, h => by
      unfold next at h
      exact derives_of_firstHere h
  | .node hd args, e, u, h => by
      rcases hargs : nextAll s rules args with x | o
      · rw [next_node_of_error hargs] at h
        cases h
      · rcases o with _ | p
        · rw [next_node_of_none hargs] at h
          exact derives_of_firstHere h
        · rw [next_node_of_some hargs] at h
          cases h
          exact derives_of_nextAll args p.1 p.2 hargs hd []

theorem derives_of_nextAll : (ts : List Tree) → ∀ e us, nextAll s rules ts = .ok (some (e, us)) →
    ∀ h before, Derives s rules (.node h (before ++ ts)) (.node h (before ++ us))
  | [], e, us, h => by cases h
  | t :: ts, e, us, h => by
      intro hd before
      rcases ht : next s rules t with x | o
      · rw [nextAll_cons_of_error ht] at h
        cases h
      · rcases o with _ | p
        · rw [nextAll_cons_of_none ht] at h
          rcases hts : nextAll s rules ts with x | o
          · rw [hts] at h
            cases h
          · rcases o with _ | p
            · rw [hts] at h
              cases h
            · rw [hts] at h
              cases h
              have hrest := derives_of_nextAll ts p.1 p.2 hts hd (before ++ [t])
              rw [List.append_assoc, List.append_assoc] at hrest
              exact hrest
        · rw [nextAll_cons_of_some ht] at h
          cases h
          exact (derives_of_next t p.1 p.2 ht).argument hd before ts

end

/-! ### Recursion as iteration -/

/-- From a log of firings on, an action does what an outcome says: the result, and the
firings that are added to the log. It draws nothing. -/
def Performs {α : Type} (x : Run α) (fired : List Firing) (o : Outcome (α × List Firing)) : Prop :=
  ∀ d, runFrom (x.run fired) d = (o.map fun r => (r.1, r.2.reverse ++ fired), d)

theorem performs_pure {α : Type} (a : α) (fired : List Firing) :
    Performs (pure a) fired (.ok (a, [])) := fun _ => rfl

theorem performs_bind {α β : Type} {x : Run α} {f : α → Run β} {fired : List Firing}
    {o : Outcome (α × List Firing)} {q : α × List Firing → Outcome (β × List Firing)}
    (hx : Performs x fired o)
    (hf : ∀ r, o = .ok r → Performs (f r.1) (r.2.reverse ++ fired) (q r)) :
    Performs (x >>= f) fired (do let r ← o; let p ← q r; return (p.1, r.2 ++ p.2)) := by
  intro d
  show runFrom (x.run fired >>= fun r => (f r.1).run r.2) d = _
  rw [Action.runFrom_bind, hx d]
  rcases o with e | r
  · rfl
  · show runFrom ((f r.1).run (r.2.reverse ++ fired)) d = _
    rw [hf r rfl d]
    show _ = (((q r).bind fun p => Except.ok (p.1, r.2 ++ p.2)).map _, d)
    rcases q r with e | p
    · rfl
    · show (Except.ok (p.1, p.2.reverse ++ (r.2.reverse ++ fired)), d) =
        (Except.ok (p.1, (r.2 ++ p.2).reverse ++ fired), d)
      rw [List.reverse_append, List.append_assoc]

/-- The outcome of letting the first rule that applies to a tree as a whole fire, where `n`
more firings are allowed. -/
def fireOnce (s : Scope) (rules : List Rule) (limit : Int) (n : Nat) (t : Tree) :
    Outcome (Option Tree × List Firing) := do
  match ← firstHere s rules t with
  | none => return (none, [])
  | some (e, u) =>
    match n with
    | 0 => .error (.error (.tooManySteps limit))
    | _ + 1 => return (some u, [← e.note])

theorem performs_fire {limit : Int} {fired : List Firing} {n : Nat}
    (hn : fired.length + n = limit.toNat) (ht : IsSteady s rules t) :
    Performs (fire s rules limit t) fired (fireOnce s rules limit n t) := by
  intro d
  unfold fire fireOnce firstHere
  show runFrom ((firstToApply s t rules >>= fun o => pure (o, fired)) >>= fun r => _) d = _
  rw [Action.runFrom_bind, Action.runFrom_bind, runFrom_firstToApply ht d]
  rcases (runFrom (firstToApply s t rules) .default).1 with e | o
  · rfl
  · rcases o with _ | ⟨r, u⟩
    · rfl
    · show runFrom ((if limit < fired.length + 1 then _ else _ : Run (Option Tree)).run fired) d = _
      cases n with
      | zero =>
          rw [if_pos (by omega)]
          rfl
      | succ n =>
          rw [if_neg (by omega)]
          show runFrom ((Action.ofFault (t.source {}) >>= fun b => pure (b, fired)) >>= _) d = _
          rw [Action.runFrom_bind, Action.runFrom_bind, Action.runFrom_ofFault]
          show _ = (Except.map _ ((do
            let firing ← Event.note ⟨r, t, u⟩
            return (some u, [firing])) : Outcome (Option Tree × List Firing)), d)
          unfold Event.note
          rcases t.source {} with f | before
          · rfl
          · show runFrom ((Action.ofFault (u.source {}) >>= fun b => pure (b, fired)) >>= _) d = _
            rw [Action.runFrom_bind, Action.runFrom_bind, Action.runFrom_ofFault]
            rcases u.source {} with f | after
            · rfl
            · rfl

theorem fireOnce_error {limit : Int} {n : Nat} {x : Failure}
    (h : firstHere s rules t = .error x) : fireOnce s rules limit n t = .error x := by
  unfold fireOnce
  rw [h]
  rfl

theorem fireOnce_none {limit : Int} {n : Nat} (h : firstHere s rules t = .ok none) :
    fireOnce s rules limit n t = .ok (none, []) := by
  unfold fireOnce
  rw [h]
  rfl

theorem fireOnce_zero {limit : Int} {e : Event} (h : firstHere s rules t = .ok (some (e, u))) :
    fireOnce s rules limit 0 t = .error (.error (.tooManySteps limit)) := by
  unfold fireOnce
  rw [h]
  rfl

theorem fireOnce_succ {limit : Int} {n : Nat} {e : Event}
    (h : firstHere s rules t = .ok (some (e, u))) :
    fireOnce s rules limit (n + 1) t = e.note.map fun firing => (some u, [firing]) := by
  unfold fireOnce
  rw [h]
  show e.note.bind _ = _
  rcases e.note with x | firing <;> rfl

theorem fireOnce_eq_ok {limit : Int} {n : Nat} {r : Option Tree × List Firing}
    (h : fireOnce s rules limit n t = .ok r) :
    r = (none, []) ∨ ∃ e u firing m, n = m + 1 ∧ firstHere s rules t = .ok (some (e, u)) ∧
      r = (some u, [firing]) := by
  rcases hhere : firstHere s rules t with x | o
  · rw [fireOnce_error hhere] at h
    cases h
  · rcases o with _ | ⟨e, u⟩
    · rw [fireOnce_none hhere] at h
      cases h
      exact .inl rfl
    · cases n with
      | zero =>
          rw [fireOnce_zero hhere] at h
          cases h
      | succ m =>
          rw [fireOnce_succ hhere] at h
          rcases hnote : e.note with x | firing
          · rw [hnote] at h
            cases h
          · rw [hnote] at h
            cases h
            exact .inr ⟨e, u, firing, m, rfl, rfl, rfl⟩

/-- The iteration from a tree whose arguments are settled begins at its head. -/
theorem iterate_eq_fireOnce {limit : Int} {n : Nat}
    (hnext : next s rules t = firstHere s rules t) :
    iterate (next s rules) limit n t = (do
      let r ← fireOnce s rules limit n t
      let p ← r.1.elim (.ok (t, [])) (iterate (next s rules) limit (n - 1))
      return (p.1, r.2 ++ p.2)) := by
  rcases hhere : firstHere s rules t with x | o
  · rw [fireOnce_error hhere, iterate_error (hnext.trans hhere)]
    rfl
  · rcases o with _ | ⟨e, u⟩
    · rw [fireOnce_none hhere, iterate_none (hnext.trans hhere)]
      rfl
    · cases n with
      | zero =>
          rw [fireOnce_zero hhere, iterate_zero (hnext.trans hhere)]
          rfl
      | succ n =>
          rw [fireOnce_succ hhere, iterate_succ (hnext.trans hhere)]
          rcases e.note with x | firing <;> rfl

/-- Settling a node whose arguments are settled: iteration from there on, if what comes
after a firing is iteration too. -/
theorem performs_finish {again : Tree → Run Tree} {limit : Int} {fired : List Firing} {n : Nat}
    (hn : fired.length + n = limit.toNat) (ht : StaysSteady s rules t)
    (hnext : next s rules t = firstHere s rules t)
    (hagain : ∀ m, m < n → ∀ log : List Firing, log.length + m = limit.toNat →
      ∀ u, StaysSteady s rules u → Performs (again u) log (iterate (next s rules) limit m u)) :
    Performs (settleWith.finish (fire s rules limit) again t) fired
      (iterate (next s rules) limit n t) := by
  rw [iterate_eq_fireOnce hnext]
  unfold settleWith.finish
  refine performs_bind (performs_fire hn ht.isSteady) fun r hr => ?_
  rcases fireOnce_eq_ok hr with rfl | ⟨e, u, firing, m, rfl, hhere, rfl⟩
  · exact performs_pure t fired
  · refine hagain m (Nat.lt_succ_self m) (firing :: fired) ?_ u
      (ht.of_derives (derives_of_firstHere hhere))
    rw [List.length_cons]
    omega

mutual

/-- Settling a tree is iteration. -/
theorem performs_settleWith {again : Tree → Run Tree} {limit : Int} {bound : Nat}
    (hagain : ∀ m, m < bound → ∀ log : List Firing, log.length + m = limit.toNat →
      ∀ u, StaysSteady s rules u → Performs (again u) log (iterate (next s rules) limit m u)) :
    (t : Tree) → StaysSteady s rules t → ∀ n, n ≤ bound → ∀ fired : List Firing,
      fired.length + n = limit.toNat →
      Performs (settleWith (fire s rules limit) again t) fired (iterate (next s rules) limit n t)
  | .leaf v, ht, n, hle, fired, hn => by
      unfold settleWith
      exact performs_finish hn ht rfl fun m hm => hagain m (by omega)
  | .node h args, ht, n, hle, fired, hn => by
      rw [iterate_two_phases (C := Tree.node h) (fun _ _ => next_node_of_some)
        fun _ _ => next_node_of_error]
      unfold settleWith
      refine performs_bind (performs_settleAllWith hagain args (fun t => ht.of_mem) n hle fired hn)
        fun r hr => ?_
      obtain ⟨hnext, hlength⟩ := iterate_eq_ok hr
      have hderives : Derives s rules (.node h args) (.node h r.1) := by
        refine iterate_rel (P := fun ts us => Derives s rules (.node h ts) (.node h us))
          (fun _ => .refl) (fun ts e us vs hts hus => ?_) hr
        exact (derives_of_nextAll ts e us hts h []).trans hus
      refine performs_finish ?_ (ht.of_derives hderives) (next_node_of_none hnext)
        fun m hm => hagain m (by omega)
      rw [List.length_append, List.length_reverse]
      omega

theorem performs_settleAllWith {again : Tree → Run Tree} {limit : Int} {bound : Nat}
    (hagain : ∀ m, m < bound → ∀ log : List Firing, log.length + m = limit.toNat →
      ∀ u, StaysSteady s rules u → Performs (again u) log (iterate (next s rules) limit m u)) :
    (ts : List Tree) → (∀ t ∈ ts, StaysSteady s rules t) → ∀ n, n ≤ bound →
      ∀ fired : List Firing, fired.length + n = limit.toNat →
      Performs (settleAllWith (fire s rules limit) again ts) fired
        (iterate (nextAll s rules) limit n ts)
  | [], hts, n, hle, fired, hn => by
      rw [iterate_none rfl]
      unfold settleAllWith
      exact performs_pure [] fired
  | t :: ts, hts, n, hle, fired, hn => by
      rw [iterate_two_phases (C := fun u => u :: ts) (fun _ _ => nextAll_cons_of_some)
        fun _ _ => nextAll_cons_of_error]
      unfold settleAllWith
      refine performs_bind (performs_settleWith hagain t (hts t List.mem_cons_self) n hle fired hn)
        fun r hr => ?_
      obtain ⟨hnext, hlength⟩ := iterate_eq_ok hr
      rw [iterate_two_phases (C := fun us => r.1 :: us)
        (fun us p (hus : nextAll s rules us = _) => by rw [nextAll_cons_of_none hnext, hus]; rfl)
        fun us e (hus : nextAll s rules us = _) => by rw [nextAll_cons_of_none hnext, hus]; rfl]
      refine performs_bind (performs_settleAllWith hagain ts
        (fun u hu => hts u (List.mem_cons_of_mem t hu)) (n - r.2.length) (by omega) _ ?_)
        fun q hq => ?_
      · rw [List.length_append, List.length_reverse]
        omega
      · have hnone : nextAll s rules (r.1 :: q.1) = .ok none := by
          rw [nextAll_cons_of_none hnext, (iterate_eq_ok hq).1]
          rfl
        rw [iterate_none hnone]
        exact performs_pure _ _

end

/-- Simplification with enough fuel for the firings that are allowed is iteration. -/
theorem performs_settle (limit : Int) : (fuel : Nat) → (t : Tree) → StaysSteady s rules t →
    ∀ n, n ≤ fuel → ∀ fired : List Firing, fired.length + n = limit.toNat →
      Performs (settle s rules limit fuel t) fired (iterate (next s rules) limit n t)
  | 0, t, ht, n, hle, fired, hn => by
      unfold settle
      exact performs_settleWith (fun m (hm : m < 0) => absurd hm (Nat.not_lt_zero m)) t ht n hle
        fired hn
  | fuel + 1, t, ht, n, hle, fired, hn => by
      unfold settle
      refine performs_settleWith (fun m hm log hlog u hu => ?_) t ht n hle fired hn
      exact performs_settle limit fuel u hu m (Nat.le_of_lt_succ hm) log hlog

/-! ### Errors -/

/-- Whatever conditions and results do, applying a rule never fails with an error. -/
theorem onlyBreaksDown_areMet (found : Captures) :
    (conditions : List (Option Tree)) → (Rule.areMet s found conditions).OnlyBreaksDown
  | [] => Action.onlyBreaksDown_pure true
  | none :: _ => Action.onlyBreaksDown_breakDown _
  | some condition :: rest => by
      refine Action.onlyBreaksDown_bind (Action.onlyBreaksDown_attempt _) fun o => ?_
      split
      · exact onlyBreaksDown_areMet found rest
      · exact Action.onlyBreaksDown_pure false

theorem onlyBreaksDown_transform (r : Rule) (t : Tree) :
    (r.transform s t).OnlyBreaksDown := by
  unfold Rule.transform
  split
  · exact Action.onlyBreaksDown_pure none
  · refine Action.onlyBreaksDown_bind (onlyBreaksDown_areMet _ _) fun met => ?_
    cases met with
    | false => exact Action.onlyBreaksDown_pure none
    | true =>
        refine Action.onlyBreaksDown_bind (Action.onlyBreaksDown_attempt _) fun o => ?_
        cases o with
        | ok u => exact Action.onlyBreaksDown_pure (some u)
        | error e => exact Action.onlyBreaksDown_pure none

theorem onlyBreaksDown_firstToApply (t : Tree) :
    (rs : List Rule) → (firstToApply s t rs).OnlyBreaksDown
  | [] => Action.onlyBreaksDown_pure none
  | r :: rs => by
      refine Action.onlyBreaksDown_bind (onlyBreaksDown_transform r t) fun o => ?_
      cases o with
      | none => exact onlyBreaksDown_firstToApply t rs
      | some u => exact Action.onlyBreaksDown_pure _

theorem firstHere_ne_error (e : Error) : firstHere s rules t ≠ .error (.error e) := by
  intro h
  unfold firstHere at h
  rcases hrun : runFrom (firstToApply s t rules) .default with ⟨r, d⟩
  rw [hrun] at h
  cases r with
  | ok o => cases h
  | error x =>
      cases h
      obtain ⟨f, hf⟩ := onlyBreaksDown_firstToApply t rules _ _ _ hrun
      cases hf

mutual

/-- Looking for the next firing never fails with an error. -/
theorem next_ne_error (e : Error) : (t : Tree) → next s rules t ≠ .error (.error e)
  | .leaf v => by
      unfold next
      exact firstHere_ne_error e
  | .node h args => by
      intro hnext
      rcases hargs : nextAll s rules args with x | o
      · rw [next_node_of_error hargs] at hnext
        cases hnext
        exact nextAll_ne_error e args hargs
      · rcases o with _ | p
        · rw [next_node_of_none hargs] at hnext
          exact firstHere_ne_error e hnext
        · rw [next_node_of_some hargs] at hnext
          cases hnext

theorem nextAll_ne_error (e : Error) : (ts : List Tree) → nextAll s rules ts ≠ .error (.error e)
  | [] => by
      intro h
      cases h
  | t :: ts => by
      intro hnext
      rcases ht : next s rules t with x | o
      · rw [nextAll_cons_of_error ht] at hnext
        cases hnext
        exact next_ne_error e t ht
      · rcases o with _ | p
        · rw [nextAll_cons_of_none ht] at hnext
          rcases hts : nextAll s rules ts with x | o
          · rw [hts] at hnext
            cases hnext
            exact nextAll_ne_error e ts hts
          · rw [hts] at hnext
            cases hnext
        · rw [nextAll_cons_of_some ht] at hnext
          cases hnext

end

/-! ### Normal forms -/

/-- No rule applies to any part of a tree. -/
def IsNormal (s : Scope) (rules : List Rule) (t : Tree) : Prop :=
  ∀ u ∈ t.subtrees, ∀ r ∈ rules, ∀ d, runFrom (r.transform s u) d = (.ok none, d)

/-- Nothing comes first only if no rule applies. -/
theorem transform_of_firstToApply {rs : List Rule} (h : ∀ r ∈ rs, (r.transform s t).DrawsNothing)
    (hfirst : (runFrom (firstToApply s t rs) .default).1 = .ok none) :
    ∀ r ∈ rs, ∀ d, runFrom (r.transform s t) d = (.ok none, d) := by
  induction rs with
  | nil =>
      intro r hr
      cases hr
  | cons q rs ih =>
      obtain ⟨x, hx⟩ := h q List.mem_cons_self
      unfold firstToApply at hfirst
      rw [Action.runFrom_bind, hx] at hfirst
      rcases x with e | o
      · cases hfirst
      · rcases o with _ | u
        · intro r hr
          rcases List.mem_cons.1 hr with rfl | hr
          · exact hx
          · exact ih (fun r hr => h r (List.mem_cons_of_mem q hr)) hfirst r hr
        · cases hfirst

theorem transform_of_firstHere (h : IsSteady s rules t) (hhere : firstHere s rules t = .ok none) :
    ∀ r ∈ rules, ∀ d, runFrom (r.transform s t) d = (.ok none, d) := by
  refine transform_of_firstToApply h ?_
  unfold firstHere at hhere
  rcases hrun : (runFrom (firstToApply s t rules) .default).1 with e | o
  · rw [hrun] at hhere
    cases hhere
  · rw [hrun] at hhere
    rcases o with _ | p
    · rfl
    · cases hhere

mutual

/-- A tree in which no firing comes next is normal. -/
theorem isNormal_of_next : (t : Tree) → (∀ u ∈ t.subtrees, IsSteady s rules u) →
    next s rules t = .ok none → IsNormal s rules t
  | .leaf v, hsteady, hnext => by
      intro u hu
      rw [List.mem_singleton.1 hu]
      unfold next at hnext
      exact transform_of_firstHere (hsteady _ List.mem_cons_self) hnext
  | .node h args, hsteady, hnext => by
      rcases hargs : nextAll s rules args with x | o
      · rw [next_node_of_error hargs] at hnext
        cases hnext
      · rcases o with _ | p
        · rw [next_node_of_none hargs] at hnext
          intro u hu
          rcases List.mem_cons.1 hu with rfl | hu
          · exact transform_of_firstHere (hsteady _ List.mem_cons_self) hnext
          · exact isNormal_of_nextAll args (fun v hv => hsteady v (List.mem_cons_of_mem _ hv)) hargs
              u hu
        · rw [next_node_of_some hargs] at hnext
          cases hnext

theorem isNormal_of_nextAll : (ts : List Tree) →
    (∀ u ∈ Tree.subtreesOf ts, IsSteady s rules u) → nextAll s rules ts = .ok none →
      ∀ u ∈ Tree.subtreesOf ts, ∀ r ∈ rules, ∀ d, runFrom (r.transform s u) d = (.ok none, d)
  | [], hsteady, hnext => by
      intro u hu
      cases hu
  | t :: ts, hsteady, hnext => by
      intro u hu
      rcases ht : next s rules t with x | o
      · rw [nextAll_cons_of_error ht] at hnext
        cases hnext
      · rcases o with _ | p
        · rw [nextAll_cons_of_none ht] at hnext
          rcases hts : nextAll s rules ts with x | o
          · rw [hts] at hnext
            cases hnext
          · rcases o with _ | p
            · rcases List.mem_append.1 hu with hu | hu
              · exact isNormal_of_next t (fun v hv => hsteady v (List.mem_append_left _ hv)) ht u hu
              · exact isNormal_of_nextAll ts (fun v hv => hsteady v (List.mem_append_right _ hv)) hts
                  u hu
            · rw [hts] at hnext
              cases hnext
        · rw [nextAll_cons_of_some ht] at hnext
          cases hnext

end

/-! ### Runs -/

/-- Firings one after the other, each of them the one that comes next, lead from one tree to
another. -/
inductive Fires (s : Scope) (rules : List Rule) : Tree → List Firing → Tree → Prop where
  | refl (t : Tree) : Fires s rules t [] t
  | head {e : Event} {firing : Firing} {fired : List Firing} {t u v : Tree}
      (hnext : next s rules t = .ok (some (e, u))) (hnote : e.note = .ok firing)
      (hrest : Fires s rules u fired v) : Fires s rules t (firing :: fired) v

theorem Event.note_ne_error (e : Event) (x : Error) : e.note ≠ .error (.error x) := by
  intro h
  unfold Event.note at h
  rcases hbefore : e.before.source {} with f | before
  · rw [hbefore] at h
    cases h
  · rcases hafter : e.after.source {} with f | after
    · rw [hbefore, hafter] at h
      cases h
    · rw [hbefore, hafter] at h
      cases h

/-- The firings of an iteration. -/
theorem fires_of_iterate {limit : Int} {n : Nat} {r : Tree × List Firing}
    (h : iterate (next s rules) limit n t = .ok r) : Fires s rules t r.2 r.1 := by
  induction n generalizing t r with
  | zero =>
      rcases iterate_cases h with ⟨-, rfl⟩ | ⟨m, _, _, _, _, hm, -⟩
      · exact .refl t
      · cases hm
  | succ n ih =>
      rcases iterate_cases h with ⟨-, rfl⟩ | ⟨m, e, b, firing, r', hm, hnext, hnote, hrest, rfl⟩
      · exact .refl t
      · cases hm
        exact .head hnext hnote (ih hrest)

/-- An iteration fails with an error exactly if there is one firing more than allowed. -/
theorem iterate_eq_error {limit : Int} {n : Nat} {x : Error} :
    iterate (next s rules) limit n t = .error (.error x) ↔
      x = .tooManySteps limit ∧ ∃ fired u p, Fires s rules t fired u ∧ fired.length = n ∧
        next s rules u = .ok (some p) := by
  induction n generalizing t with
  | zero =>
      constructor
      · intro h
        rcases hnext : next s rules t with e | o
        · rw [iterate_error hnext] at h
          cases h
          exact absurd hnext (next_ne_error x t)
        · rcases o with _ | p
          · rw [iterate_none hnext] at h
            cases h
          · rw [iterate_zero hnext] at h
            cases h
            exact ⟨rfl, [], t, p, .refl t, rfl, hnext⟩
      · rintro ⟨rfl, fired, u, p, hfires, hlength, hnext⟩
        cases hfires with
        | refl => exact iterate_zero hnext
        | head => cases hlength
  | succ n ih =>
      constructor
      · intro h
        rcases hnext : next s rules t with e | o
        · rw [iterate_error hnext] at h
          cases h
          exact absurd hnext (next_ne_error x t)
        · rcases o with _ | ⟨e, u⟩
          · rw [iterate_none hnext] at h
            cases h
          · rw [iterate_succ hnext] at h
            rcases hnote : e.note with f | firing
            · rw [hnote] at h
              cases h
              exact absurd hnote (e.note_ne_error x)
            · rw [hnote] at h
              rcases hrest : iterate (next s rules) limit n u with y | r
              · simp only [hrest] at h
                cases h
                obtain ⟨rfl, fired, v, p, hfires, hlength, hv⟩ := ih.1 hrest
                refine ⟨rfl, firing :: fired, v, p, .head hnext hnote hfires, ?_, hv⟩
                rw [List.length_cons, hlength]
              · simp only [hrest] at h
                cases h
      · rintro ⟨rfl, fired, v, p, hfires, hlength, hv⟩
        cases hfires with
        | refl => cases hlength
        | head hnext hnote hrest =>
            have hiterate := ih.2 ⟨rfl, _, v, p, hrest, Nat.succ.inj hlength, hv⟩
            rw [iterate_succ hnext, hnote, hiterate]
            rfl

end Simplify

namespace Ruleset

open Simplify

variable {R : Ruleset} {s : Scope} {t : Tree}

/-- Simplification is iteration, and draws nothing. -/
theorem runFrom_simplifyTracing (limit : Int) (h : StaysSteady s.withoutVariables R.rules t)
    (d : Draws) :
    runFrom (R.simplifyTracing s limit t) d =
      (iterate (next s.withoutVariables R.rules) limit limit.toNat t, d) := by
  unfold simplifyTracing
  rw [Action.runFrom_bind]
  have hsettle := performs_settle limit limit.toNat t h limit.toNat (Nat.le_refl _) []
    (by rw [List.length_nil]; omega) d
  rw [show runFrom ((settle s.withoutVariables R.rules limit limit.toNat t).run []) d = _ from
    hsettle]
  rcases iterate (next s.withoutVariables R.rules) limit limit.toNat t with e | r
  · rfl
  · show (Except.ok (r.1, (r.2.reverse ++ []).reverse), d) = _
    rw [List.append_nil, List.reverse_reverse]

/-- **Simplification reaches a normal form.** If no application of a rule draws random
numbers, simplification ends. It fails with an error exactly if one firing more than
allowed comes next after those that are allowed; what it gives otherwise no rule applies
to in any part, and simplifying it again changes nothing. -/
theorem simplifyTracing_reaches_normal_form (R : Ruleset) (s : Scope) (limit : Int) (t : Tree)
    (h : StaysSteady s.withoutVariables R.rules t) :
    ∃ o, (∀ d, runFrom (R.simplifyTracing s limit t) d = (o, d)) ∧
      (o = .error (.error (.tooManySteps limit)) ↔
        ∃ fired u p, Fires s.withoutVariables R.rules t fired u ∧ fired.length = limit.toNat ∧
          next s.withoutVariables R.rules u = .ok (some p)) ∧
      (∀ e, o = .error (.error e) → e = .tooManySteps limit) ∧
      ∀ u fired, o = .ok (u, fired) →
        Fires s.withoutVariables R.rules t fired u ∧ fired.length ≤ limit.toNat ∧
        (∀ v ∈ u.subtrees, ∀ r ∈ R.rules, ∀ d, runFrom (r.apply s v) d = (.ok none, d)) ∧
        ∀ d, runFrom (R.simplifyTracing s limit u) d = (.ok (u, []), d) := by
  refine ⟨_, runFrom_simplifyTracing limit h, ?_, fun e he => (iterate_eq_error.1 he).1, ?_⟩
  · rw [iterate_eq_error, eq_self_iff_true, true_and]
  · intro u fired ho
    have hrun : runFrom (R.simplifyTracing s limit t) .default = (.ok (u, fired), .default) := by
      rw [runFrom_simplifyTracing limit h, ho]
    have hu : StaysSteady s.withoutVariables R.rules u :=
      h.of_derives (derives_of_simplifyTracing hrun)
    obtain ⟨hnext, hlength⟩ := iterate_eq_ok ho
    refine ⟨fires_of_iterate ho, hlength, ?_, fun d => ?_⟩
    · exact isNormal_of_next u (fun v hv => hu u .refl v hv) hnext
    · rw [runFrom_simplifyTracing limit hu, iterate_none hnext]

/-- A rule that adds a negative number by subtracting. -/
def subtractNegative : List Rule :=
  (Rule.ofSource 0 "subtract" "?;x+?;y" ["y<0"] (some "x-eval(-y)")).toOption.toList

/-- The built-in functions that make no random choices. -/
def steadyScope : Scope :=
  (Library.signatures.filter fun f =>
    match f.body with
    | .builtin p => !p.isRandom
    | _ => true).foldl Scope.addSignature .empty

theorem isQuiet_steadyScope : steadyScope.withoutVariables.IsQuiet := by
  have hquiet : steadyScope.IsQuiet := by
    intro name f hf p hp
    unfold steadyScope at hf
    rw [Scope.signatures_addSignatures] at hf
    have hrandom := (List.mem_filter.1 (List.mem_filter.1 hf).1).2
    rw [hp] at hrandom
    simpa using hrandom
  exact hquiet.child

/-- `1 + random(1, -1)` -/
def signChoice : Tree :=
  .binary "+" (.leaf (.nat 1))
    (.node (.call "random") [.leaf (.nat 1), .node (.op ⟨"-u", .before⟩) [.leaf (.nat 1)]])

theorem simplifyTracing_reaches_normal_form_signChoice :
    StaysSteady steadyScope.withoutVariables subtractNegative signChoice ∧
      ∃ o, (∀ d, runFrom ((Ruleset.mk subtractNegative .empty).simplifyTracing steadyScope 3
          signChoice) d = (o, d)) ∧
        (o = .error (.error (.tooManySteps 3)) ↔
          ∃ fired u p, Fires steadyScope.withoutVariables subtractNegative signChoice fired u ∧
            fired.length = Int.toNat 3 ∧
            next steadyScope.withoutVariables subtractNegative u = .ok (some p)) ∧
        (∀ e, o = .error (.error e) → e = .tooManySteps 3) ∧
        ∀ u fired, o = .ok (u, fired) →
          Fires steadyScope.withoutVariables subtractNegative signChoice fired u ∧
          fired.length ≤ Int.toNat 3 ∧
          (∀ v ∈ u.subtrees, ∀ r ∈ subtractNegative, ∀ d,
            runFrom (r.apply steadyScope v) d = (.ok none, d)) ∧
          ∀ d, runFrom ((Ruleset.mk subtractNegative .empty).simplifyTracing steadyScope 3 u) d =
            (.ok (u, []), d) :=
  have hsteady := staysSteady_of_isQuiet isQuiet_steadyScope subtractNegative signChoice
  ⟨hsteady, simplifyTracing_reaches_normal_form ⟨subtractNegative, .empty⟩ steadyScope 3 signChoice
    hsteady⟩

/-- Whether an action gives a tree without any firing, and then a rule applies to the tree. -/
def leavesRedex (x : Action (Tree × List Firing)) (s : Scope) (rules : List Rule) (d : Draws) :
    Bool :=
  match runFrom x d with
  | (.ok (u, []), d') => rules.any fun r =>
    match (runFrom (r.transform s u) d').1 with
    | .ok (some _) => true
    | _ => false
  | _ => false

theorem exists_of_leavesRedex {x : Action (Tree × List Firing)} {s : Scope} {rules : List Rule}
    {d : Draws} (h : leavesRedex x s rules d = true) :
    ∃ u d', runFrom x d = (.ok (u, []), d') ∧
      ∃ r ∈ rules, ∃ v d'', runFrom (r.transform s u) d' = (.ok (some v), d'') := by
  unfold leavesRedex at h
  split at h
  · rename_i u d' hrun
    obtain ⟨r, hr, happlies⟩ := List.any_eq_true.1 h
    rcases hfire : runFrom (r.transform s u) d' with ⟨o, d''⟩
    rw [hfire] at happlies
    rcases o with e | _ | v
    · cases happlies
    · cases happlies
    · exact ⟨u, d', hrun, r, hr, v, d'', hfire⟩
  · cases h

/-- Where a condition of a rule makes a random choice, because the tree does, a rule may apply to
what simplification has left as it is. -/
theorem exists_redex_simplifyTracing_signChoice :
    ∃ u d, runFrom ((Ruleset.mk subtractNegative .empty).simplifyTracing Library.scope usualLimit
        signChoice) .default = (.ok (u, []), d) ∧
      ∃ r ∈ subtractNegative, ∃ v d', runFrom (r.apply Library.scope u) d = (.ok (some v), d') := by
  unfold simplifyTracing Rule.apply Scope.withoutVariables
  rw [Library.child_scope, Library.scope_eq]
  refine exists_of_leavesRedex ?_
  decide +kernel

end Ruleset

end MathExpr
