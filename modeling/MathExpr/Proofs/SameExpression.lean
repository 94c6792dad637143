import MathExpr.Proofs.FiniteNumbers
import MathExpr.Proofs.FunctionNames
import MathExpr.Proofs.Judgement
import MathExpr.Proofs.Literals
import MathExpr.Proofs.Quiet
import Mathlib.Tactic.FinCases

/-!
# The same expression

An answer that is the same expression as the right one, up to the case of names, is right
(`Marking.isRight_of_eqv`): the two trees have the same free names, and at each point the same value; and a
value agrees with itself by any criterion for differences (`Criterion.agreeValues_self`).

It has to be finite, because what is undefined agrees with nothing. And the free names have to be found:
this fails for slots that cannot be read, even in texts that are never evaluated
(`Marking.not_isRight_self`).
-/

namespace MathExpr

/-! ### Values -/

namespace Value

mutual

/-- Whether no number in a value is infinite or undefined. -/
def isFinite : Value → Bool
  | number n => n.isFinite
  | list items => areFinite items
  | set items => areFinite items
  | vector entries => entries.all Float.isFinite
  | matrix m => m.entries.all Float.isFinite
  | range r => r.start.isFinite && r.stop.isFinite && r.step.isFinite
  | text .. => true
  | boolean _ => true
  | name .. => true

/-- Whether no number in a list of values is infinite or undefined. -/
def areFinite : List Value → Bool
  | [] => true
  | v :: vs => isFinite v && areFinite vs

end

mutual

/-- The numbers of a value that are compared on their own: it is one, or they are in lists. -/
def numbers : Value → List Number
  | number n => [n]
  | list items => numbersOf items
  | _ => []

/-- The numbers of values that are compared on their own. -/
def numbersOf : List Value → List Number
  | [] => []
  | v :: vs => numbers v ++ numbersOf vs

end

end Value

theorem eq_entries_self {xs : List Float} (h : xs.all Float.isFinite = true) :
    (List.zipWith (· == ·) xs xs).all id = true := by
  induction xs with
  | nil => rfl
  | cons x xs ih =>
      rw [List.all_cons, Bool.and_eq_true] at h
      rw [List.zipWith_cons_cons, List.all_cons, Bool.and_eq_true]
      exact ⟨Real.beq_self h.1, ih h.2⟩

namespace Value

mutual

/-- A finite value equals itself. -/
theorem eqv_self : (v : Value) → v.isFinite = true → v.eqv v = true
  | number n, h => by
      rw [isFinite, Number.isFinite, Bool.and_eq_true] at h
      rw [eqv, Number.eq, Real.beq_self h.1, Real.beq_self h.2]
      rfl
  | text s _ _, _ => by rw [eqv, beq_self_eq_true]
  | boolean b, _ => by rw [eqv, beq_self_eq_true]
  | name a hints, _ => by rw [eqv, beq_self_eq_true, beq_self_eq_true, Bool.and_self]
  | list items, h => by
      rw [isFinite] at h
      rw [eqv]
      exact eqvAll_self items h
  | set items, h => by
      rw [isFinite] at h
      rw [eqv, beq_self_eq_true, Bool.true_and]
      exact subset_self items items h fun v hv => hv
  | vector entries, h => by
      rw [isFinite] at h
      rw [eqv, Entries.eq, Nat.max_self, Entries.pad, Nat.sub_self, List.replicate_zero, List.append_nil]
      exact eq_entries_self h
  | matrix m, h => by
      rw [isFinite] at h
      rw [eqv, Matrix.eq, beq_self_eq_true, beq_self_eq_true, Bool.and_self, Bool.true_and]
      exact eq_entries_self h
  | range r, h => by
      rw [isFinite, Bool.and_eq_true, Bool.and_eq_true] at h
      rw [eqv, Range.eq, Real.beq_self h.1.1, Real.beq_self h.1.2, Real.beq_self h.2]
      rfl

theorem eqvAll_self : (vs : List Value) → areFinite vs = true → eqvAll vs vs = true
  | [], _ => rfl
  | v :: vs, h => by
      rw [areFinite, Bool.and_eq_true] at h
      rw [eqvAll, eqv_self v h.1, eqvAll_self vs h.2]
      rfl

/-- Finite values that are among others are equal to some of them. -/
theorem subset_self : (vs ws : List Value) → areFinite vs = true → (∀ v ∈ vs, v ∈ ws) →
    subset vs ws = true
  | [], _, _, _ => rfl
  | v :: vs, ws, h, hmem => by
      rw [areFinite, Bool.and_eq_true] at h
      rw [subset, Bool.and_eq_true]
      refine ⟨List.any_eq_true.2 ⟨v, hmem v List.mem_cons_self, eqv_self v h.1⟩, ?_⟩
      exact subset_self vs ws h.2 fun w hw => hmem w (List.mem_cons_of_mem v hw)

end

end Value

/-! ### Agreement of values -/

/-- A finite number differs from itself by nothing. -/
theorem Number.abs_sub_self {n : Number} (h : n.isFinite = true) : (n.sub n).abs = .ok 0.0 := by
  obtain ⟨hre, him⟩ := Bool.and_eq_true_iff.1 h
  cases n with
  | real x =>
      show Except.ok (x - x).abs = _
      rw [show x - x = 0.0 from Real.sub_self hre]
      rfl
  | complex z =>
      have hsub : z.sub z = ⟨0.0, 0.0⟩ := Complex.mk.injEq .. ▸ ⟨Real.sub_self hre, Real.sub_self him⟩
      have hypot_zero : Real.hypot 0.0 0.0 = 0.0 := by decide +kernel
      show (z.sub z).abs = _
      rw [hsub, Complex.abs]
      dsimp only
      rw [hypot_zero]
      rfl

namespace Criterion

variable {c : Criterion} {accuracy : Float}

/-- A criterion for differences, with an accuracy that is not below zero. -/
structure IsForDifferences (c : Criterion) (accuracy : Float) : Prop where
  kind : c = .difference ∨ c = .relative
  accuracy : 0.0 ≤ accuracy

/-- The size of the tolerance for a number can be computed. For a real number this is always so. -/
def HasTolerance (c : Criterion) (accuracy : Float) (n : Number) : Prop :=
  c = .relative → ∃ x, (n.mul (.real accuracy)).abs = .ok x

/-- A finite number agrees with itself. -/
theorem agree_self (hc : c.IsForDifferences accuracy) {n : Number} (hn : n.isFinite = true)
    (htolerance : c.HasTolerance accuracy n) : c.agree n n accuracy = .ok true := by
  have hinfinite : n.isInfinite = false := by
    cases n with
    | real x => exact Real.isInf_of_isFinite (Bool.and_eq_true_iff.1 hn).1
    | complex z => rfl
  have haccuracy := Real.isNaN_of_zero_le hc.accuracy
  unfold agree
  rw [hinfinite]
  obtain rfl | rfl := hc.kind
  · show (do return decide ((← (n.sub n).abs) ≤ accuracy.abs)) = Except.ok true
    rw [Number.abs_sub_self hn]
    exact congrArg Except.ok (decide_eq_true (Real.zero_le_abs haccuracy))
  · obtain ⟨x, hx⟩ := htolerance rfl
    dsimp only
    rw [Number.abs_sub_self hn, hx]
    cases hzero : n.isZero with
    | true => exact congrArg Except.ok (decide_eq_true hc.accuracy)
    | false => exact congrArg Except.ok (decide_eq_true (Number.zero_le_of_abs_mul hn hzero haccuracy hx))

theorem agreeAll_self (hc : c.IsForDifferences accuracy) {xs : List Float}
    (hxs : xs.all Float.isFinite = true) : c.agreeAll accuracy xs xs = .ok true := by
  induction xs with
  | nil => rfl
  | cons x xs ih =>
      rw [List.all_cons, Bool.and_eq_true] at hxs
      have hx : (Number.real x).isFinite = true :=
        Bool.and_eq_true_iff.2 ⟨hxs.1, show (0.0 : Float).isFinite = true by decide⟩
      rw [agreeAll, agree_self hc hx fun _ => ⟨_, rfl⟩]
      exact ih hxs.2

mutual

/-- A finite value agrees with itself. -/
theorem agreeValues_self (hc : c.IsForDifferences accuracy) : (v : Value) → v.isFinite = true →
    (∀ n ∈ v.numbers, c.HasTolerance accuracy n) → c.agreeValues accuracy v v = .ok true
  | .number n, h, htolerance => by
      rw [Value.isFinite] at h
      rw [agreeValues]
      exact agree_self hc h (htolerance n List.mem_cons_self)
  | .list items, h, htolerance => by
      rw [Value.isFinite] at h
      rw [agreeValues, if_pos rfl]
      exact agreeLists_self hc items h htolerance
  | .vector entries, h, _ => by
      rw [Value.isFinite] at h
      rw [agreeValues, if_pos rfl]
      exact agreeAll_self hc h
  | .matrix m, h, _ => by
      rw [Value.isFinite] at h
      rw [agreeValues, if_pos ⟨rfl, rfl⟩]
      exact agreeAll_self hc h
  | .set items, h, _ => congrArg Except.ok (Value.eqv_self _ h)
  | .range r, h, _ => congrArg Except.ok (Value.eqv_self _ h)
  | .text .., h, _ => congrArg Except.ok (Value.eqv_self _ h)
  | .boolean _, h, _ => congrArg Except.ok (Value.eqv_self _ h)
  | .name .., h, _ => congrArg Except.ok (Value.eqv_self _ h)

theorem agreeLists_self (hc : c.IsForDifferences accuracy) : (vs : List Value) →
    Value.areFinite vs = true → (∀ n ∈ Value.numbersOf vs, c.HasTolerance accuracy n) →
      c.agreeLists accuracy vs vs = .ok true
  | [], _, _ => rfl
  | v :: vs, h, htolerance => by
      rw [Value.areFinite, Bool.and_eq_true] at h
      rw [agreeLists, agreeValues_self hc v h.1 fun n hn => htolerance n (List.mem_append_left _ hn)]
      exact agreeLists_self hc vs h.2 fun n hn => htolerance n (List.mem_append_right _ hn)

end

end Criterion

/-! ### Points -/

namespace Action

variable {α β : Type}

/-- A list of actions that never fail does not fail. -/
theorem exists_runFrom_mapM {f : α → Action β} (h : ∀ a d, ∃ b d', runFrom (f a) d = (.ok b, d'))
    (items : List α) (d : Draws) : ∃ bs d', runFrom (items.mapM f) d = (.ok bs, d') := by
  induction items generalizing d with
  | nil => exact ⟨[], d, rfl⟩
  | cons a rest ih =>
      obtain ⟨b, d', hb⟩ := h a d
      obtain ⟨bs, d'', hbs⟩ := ih d'
      refine ⟨b :: bs, d'', ?_⟩
      rw [List.mapM_cons, runFrom_bind, hb]
      dsimp only
      rw [runFrom_bind, hbs]
      rfl

theorem SameOutcome.runFrom_eq_ok {x y : Action α} (h : SameOutcome x y) {d d' : Draws} {a : α}
    (hx : runFrom x d = (.ok a, d')) : runFrom y d = (.ok a, d') := by
  have hsame : outcome x d = outcome y d := congrFun h d
  unfold outcome at hsame
  rw [hx] at hsame
  obtain ⟨hresult, hdraws⟩ := Prod.ext_iff.1 hsame
  exact Prod.ext (eq_ok_of_mapError hresult.symm) hdraws.symm

end Action

namespace Marking

open MathExpr.Action (runFrom runFrom_bind runFrom_tryCatch exists_runFrom_mapM)

variable {c : Criterion} {accuracy : Float} {s s' : Scope} {a b : Tree}

/-- The tree has a finite value in the scope, and the tolerances for the numbers in it can be computed. -/
def HasFiniteValue (c : Criterion) (accuracy : Float) (s : Scope) (t : Tree) : Prop :=
  ∃ v, (runFrom (s.eval t) .default).1 = .ok v ∧ v.isFinite = true ∧
    ∀ n ∈ v.numbers, c.HasTolerance accuracy n

/-- The points that are drawn one after another, out of `n`, if nothing else is drawn. -/
def samples (s : Scope) (start stop : Float) (names : List String) : Nat → Draws → List Scope
  | 0, _ => []
  | n + 1, d =>
    match runFrom (drawPoint s start stop names) d with
    | (.ok point, d) => point :: samples s start stop names n d
    | (.error _, _) => []

/-- The scopes in which an answer is compared with the right one. -/
def sampledScopes (m : Marking) (s : Scope) (names : List String) (d : Draws) : List Scope :=
  if names.isEmpty then [s]
  else
    match m.start.toFloat, m.stop.toFloat, m.points.toInt with
    | .ok start, .ok stop, .ok n => samples s start stop names n.toNat d
    | _, _, _ => []

/-- A point can always be drawn, and has the functions of the scope. -/
theorem runFrom_drawPoint (s : Scope) (start stop : Float) (names : List String) (d : Draws) :
    ∃ point d', runFrom (drawPoint s start stop names) d = (.ok point, d') ∧ s.SharesFunctions point := by
  obtain ⟨point, d', hpoint⟩ := exists_runFrom_mapM
    (f := fun n => do return (n, Value.real (← Action.uniform start stop))) (fun n d => ⟨_, _, rfl⟩) names d
  refine ⟨s.child.merge { values := .ofList point }, d', ?_, (Scope.SharesFunctions.refl s).child⟩
  unfold drawPoint
  rw [runFrom_bind, hpoint]
  rfl

/-- Where a tree has a finite value, one that only differs in the case of names counts as the same. -/
theorem runFrom_judge_sameValue (hc : c.IsForDifferences accuracy) (hquiet : a.IsQuiet s)
    (hs : s.SharesFunctions s') (hab : a.Renamed .identity b) (ha : HasFiniteValue c accuracy s' a)
    (d : Draws) : runFrom (judge (sameValue c accuracy s' a b)) d = (.ok true, d) := by
  obtain ⟨v, hv, hfinite, htolerance⟩ := ha
  obtain ⟨r, hr⟩ := hquiet.drawsNothing_eval hs
  have hleft : runFrom (s'.eval a) d = (.ok v, d) := by
    rw [hr] at hv ⊢
    exact congrArg (·, d) hv
  have hright := ((Scope.renamed_identity s').sameOutcome_eval hab).runFrom_eq_ok hleft
  have hsame : runFrom (sameValue c accuracy s' a b) d = (.ok true, d) := by
    unfold sameValue
    rw [runFrom_bind, hleft]
    dsimp only
    rw [runFrom_bind, hright]
    dsimp only
    rw [Criterion.agreeValues_self hc v hfinite htolerance]
    rfl
  unfold judge
  rw [runFrom_tryCatch, hsame]

/-- If a tree has finite values at all points, one that only differs in the case of names counts as the
same at each. -/
theorem runFrom_countFailures (hc : c.IsForDifferences accuracy) (hquiet : a.IsQuiet s)
    (hab : a.Renamed .identity b) (start stop : Float) (names : List String) (n : Nat) (d : Draws)
    (ha : ∀ point ∈ samples s start stop names n d, HasFiniteValue c accuracy point a) :
    (runFrom (countFailures c accuracy s start stop names a b n) d).1 = .ok 0 := by
  induction n generalizing d with
  | zero => rfl
  | succ n ih =>
      obtain ⟨point, d', hpoint, hs⟩ := runFrom_drawPoint s start stop names d
      rw [samples, hpoint] at ha
      dsimp only at ha
      have hjudge := runFrom_judge_sameValue hc hquiet hs hab (ha point List.mem_cons_self) d'
      have hrest := ih d' fun p hp => ha p (List.mem_cons_of_mem point hp)
      unfold countFailures
      rw [runFrom_bind, hpoint]
      dsimp only
      rw [runFrom_bind, hjudge]
      dsimp only
      rw [runFrom_bind]
      rcases hrun : runFrom (countFailures c accuracy s start stop names a b n) d' with ⟨r, d''⟩
      rw [hrun] at hrest
      cases hrest
      rfl

/-! ### Equal trees -/

/-- Trees that only differ in the case of names have the same free names. -/
theorem freeNames_eq (s : Scope) (h : a.Renamed .identity b) : freeNames s a = freeNames s b := by
  have hfree : FreeNames.ofTree s.tree [] a = FreeNames.ofTree s.tree [] b := by
    rcases (FreeNames.ofTree_renamed (fun _ => rfl) h).or with ⟨ks, ls, hks, hls, hkeys⟩ | ⟨e, ha, hb⟩
    · rw [hks, hls, Renaming.isIdentity_identity.eq_of_keys hkeys]
    · rw [ha, hb]
  unfold freeNames
  rw [hfree]

theorem sameNames_self (names : List String) : sameNames names names = true := by
  unfold sameNames
  rw [Bool.and_self]
  exact List.all_eq_true.2 fun n hn => List.contains_iff_mem.2 hn

/-- **The same expression.** An answer is right if its tree is equal to that of the right one. The trees
make no random choices, their free names can be found, and they have finite values at the points that are
drawn. The criterion is for differences, and at least one difference makes an answer wrong. -/
theorem isRight_of_eqv {m : Marking} (hm : m.IsValid)
    (hcriterion : Criterion.ofName? (Text.lower m.criterion) = some c)
    (haccuracy : m.accuracy.toFloat = .ok accuracy) (hc : c.IsForDifferences accuracy) {limit : Float}
    (hfailures : m.failures = .number limit) (hlimit : 1.0 ≤ limit) {answer right : String}
    (ha : s.tree answer = .ok (some a)) (hb : s.tree right = .ok (some b)) (heqv : a.eqv b = true)
    (hquiet : a.IsQuiet s) {names : List String} (hnames : freeNames s a = .ok names) (d : Draws)
    (hvalues : ∀ point ∈ m.sampledScopes s names d, HasFiniteValue c accuracy point a) :
    (runFrom (m.isRight s (some answer) (some right)) d).1 = .ok true := by
  have hab := Tree.renamed_of_eqv (Scope.leaves_isLiteral_of_tree ha) (Scope.leaves_isLiteral_of_tree hb) heqv
  have hprepare : prepare s (some answer) (some right) = .ok (.inr (a, b, names)) := by
    have hfree : freeNames s b = .ok names := (freeNames_eq s hab).symm.trans hnames
    unfold prepare
    dsimp only
    rw [ha, hb]
    show (freeNames s a >>= fun found => freeNames s b >>= fun names => _) = _
    rw [hnames, hfree]
    show (if sameNames names names then _ else _) = _
    rw [sameNames_self]
    rfl
  obtain ⟨start, hstart⟩ := hm.start
  obtain ⟨stop, hstop⟩ := hm.stop
  obtain ⟨n, hpoints⟩ := hm.points
  unfold sampledScopes at hvalues
  unfold isRight
  rw [hcriterion, haccuracy, hstart, hstop, hpoints, hfailures, hprepare]
  rw [hstart, hstop, hpoints] at hvalues
  simp only [Action.ofFault_ok, pure_bind]
  cases hempty : names.isEmpty with
  | true =>
      rw [hempty, if_pos rfl] at hvalues
      rw [if_pos rfl, runFrom_judge_sameValue hc hquiet (.refl s) hab (hvalues s List.mem_cons_self)]
  | false =>
      rw [hempty, if_neg Bool.false_ne_true] at hvalues
      have hcount := runFrom_countFailures hc hquiet hab start stop names n.toNat d hvalues
      rw [if_neg Bool.false_ne_true, runFrom_bind]
      rcases hrun : runFrom (countFailures c accuracy s start stop names a b n.toNat) d with ⟨r, d'⟩
      rw [hrun] at hcount
      cases hcount
      exact congrArg Except.ok (decide_eq_true (Real.zero_lt_of_one_le hlimit))

theorem isRight_of_eqv_upperCase :
    Library.scope.tree "x" = .ok (some (.leaf (.name "x" []))) ∧
      Library.scope.tree "X" = .ok (some (.leaf (.name "X" []))) ∧
      (runFrom (isRight { points := .text "1" } Library.scope (some "x") (some "X")) .default).1 = .ok true := by
  have hcriterion : Criterion.ofName? (Text.lower "reldiff") = some .relative := by decide +kernel
  have hpoints : Setting.toInt (.text "1") = .ok 1 :=
    congrArg (fun n => n.elim (Except.error Fault.outsideDomain) Except.ok)
      (show Real.readInt "1" = some 1 by decide +kernel)
  have hread {name : String} (hts : Token.ofSource (Text.strip name) = .ok [.name name []])
      (hempty : (Text.strip name).isEmpty = false) :
      Library.scope.tree name = .ok (some (.leaf (.name name []))) := by
    rw [Scope.tree_eq_ofTokens hts hempty]
    rfl
  have hx := hread (show Token.ofSource (Text.strip "x") = _ by decide +kernel) (by decide +kernel)
  have hX := hread (show Token.ofSource (Text.strip "X") = _ by decide +kernel) (by decide +kernel)
  have hquiet : (Tree.leaf (.name "x" [])).IsQuiet Library.scope := fun _ happlies => by cases happlies
  have hnames : freeNames Library.scope (.leaf (.name "x" [])) = .ok ["x"] := by
    decide +kernel
  refine ⟨hx, hX, isRight_of_eqv
    ⟨⟨.relative, hcriterion⟩, ⟨0.0001, rfl⟩, ⟨0.0, rfl⟩, ⟨1.0, rfl⟩, ⟨1, hpoints⟩, ⟨1.0, rfl⟩⟩
    hcriterion rfl ⟨.inr rfl, by decide⟩ rfl (by decide) hx hX (by decide +kernel) hquiet hnames _ ?_⟩
  have hsamples : sampledScopes { points := .text "1" } Library.scope ["x"] .default =
      [Library.scope.child.merge { values := .ofList [("x", .real (0.0 + (1.0 - 0.0) * 0.1))] }] := by
    unfold sampledScopes
    rw [hpoints]
    rfl
  rw [hsamples]
  intro point hpoint
  rw [List.mem_singleton.1 hpoint]
  refine ⟨.real (0.0 + (1.0 - 0.0) * 0.1), rfl, by decide +kernel, fun n hn _ => ?_⟩
  rw [List.mem_singleton.1 hn]
  exact ⟨_, rfl⟩

/-- A tree with a slot that cannot be read, in a text that is not evaluated. -/
def unreadSlot : Tree :=
  .node (.call "if") [.leaf (.boolean true), .leaf (.boolean true), .leaf (.plainText "\x7b)\x7d")]

/-- A closing bracket alone cannot be read in any scope. -/
theorem tree_closeRound (s : Scope) : s.tree ")" = .error (.error .unopenedRound) := by
  have hts : Token.ofSource (Text.strip ")") = .ok [.mark .closeRound] := by decide +kernel
  rw [Scope.tree_eq_ofTokens hts (by decide +kernel)]
  rfl

theorem slots_unreadSlot : (Text.Template.ofText "\x7b)\x7d").slots = [(")", "")] := by decide +kernel

theorem isQuiet_unreadSlot : unreadSlot.IsQuiet Library.scope := by
  intro name happlies
  cases happlies with
  | head hname =>
      cases hname
      rintro ⟨f, hf, hrandom⟩
      rw [Library.signatures_scope] at hf
      have hquiet : (Library.signatures.filter fun f => Text.lower "if" == Text.lower f.name).all
          (fun f => !f.isRandom) = true := by decide +kernel
      have hf := List.all_eq_true.1 hquiet f hf
      rw [hrandom] at hf
      cases hf
  | body hcalled hf hbody =>
      exact absurd hbody (Scope.holdsBuiltIns_scope.body_ne_custom _ _ hf _ _ _)
  | argument ht happlies =>
      fin_cases ht
      · cases happlies
      · cases happlies
      · cases happlies with
        | slot hslot hs hread =>
            rw [slots_unreadSlot] at hslot
            cases List.mem_singleton.1 hslot
            rw [tree_closeRound] at hread
            cases hread

theorem eval_unreadSlot (d : Draws) : runFrom (Library.scope.eval unreadSlot) d = (.ok (.boolean true), d) := by
  have hcall : Library.scope.eval unreadSlot = _ := Library.tree_construct (c := .conditional) _ rfl rfl false _
  rw [hcall]
  rfl

theorem freeNames_unreadSlot : freeNames Library.scope unreadSlot = .error (.error .unopenedRound) := by
  decide +kernel

/-- An expression with a slot that cannot be read has a value, and is not the same as itself. -/
theorem not_isRight_self :
    Library.scope.tree "if(true,true,\x22\x7b)\x7d\x22)" = .ok (some unreadSlot) ∧
      unreadSlot.eqv unreadSlot = true ∧ unreadSlot.IsQuiet Library.scope ∧
      runFrom (Library.scope.eval unreadSlot) .default = (.ok (.boolean true), .default) ∧
      runFrom (isRight {} Library.scope (some "if(true,true,\x22\x7b)\x7d\x22)")
        (some "if(true,true,\x22\x7b)\x7d\x22)")) .default = (.ok false, .default) := by
  have hts : Token.ofSource (Text.strip "if(true,true,\x22\x7b)\x7d\x22)") =
      .ok [.function "if", .mark .openRound, .boolean true, .mark .comma, .boolean true, .mark .comma,
        .text "\x7b)\x7d", .mark .closeRound] := by decide +kernel
  have hread : Library.scope.tree "if(true,true,\x22\x7b)\x7d\x22)" = .ok (some unreadSlot) := by
    rw [Scope.tree_eq_ofTokens hts (by decide +kernel)]
    rfl
  have hcriterion : Criterion.ofName? (Text.lower "reldiff") = some .relative := by decide +kernel
  refine ⟨hread, by decide +kernel, isQuiet_unreadSlot, eval_unreadSlot .default, ?_⟩
  have hprepare : prepare Library.scope (some "if(true,true,\x22\x7b)\x7d\x22)")
      (some "if(true,true,\x22\x7b)\x7d\x22)") = .error (.error .unopenedRound) := by
    unfold prepare
    dsimp only
    rw [hread]
    show (freeNames Library.scope unreadSlot >>= fun found => _) = _
    rw [freeNames_unreadSlot]
    rfl
  unfold isRight
  rw [hcriterion]
  simp only [hprepare]
  rfl

end Marking

end MathExpr
