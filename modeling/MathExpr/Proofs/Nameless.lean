import MathExpr.Proofs.Leaves
import MathExpr.Proofs.SubstitutionLemma

/-!
# Values without names

A name without a value is an error, so that the value of a tree has no name in it unless a variable or a
literal of the tree or of a custom function has one (`Scope.returns_isNameless_eval`). What an operation makes
of values without names is again one: it makes numbers, texts and truth values of its own, and otherwise only
hands on what it is given (`Primitive.isNameless_apply`).
-/

namespace MathExpr

/-! ### Sorting -/

namespace Ordering

variable {α : Type} {lt : α → α → Bool}

theorem risingRun_append (last : α) (xs : List α) :
    (risingRun lt last xs).1 ++ (risingRun lt last xs).2 = xs := by
  induction xs generalizing last with
  | nil => rfl
  | cons x xs ih =>
      rw [risingRun]
      split
      · rfl
      · exact congrArg (x :: ·) (ih x)

theorem fallingRun_append (last : α) (xs : List α) :
    (fallingRun lt last xs).1 ++ (fallingRun lt last xs).2 = xs := by
  induction xs generalizing last with
  | nil => rfl
  | cons x xs ih =>
      rw [fallingRun]
      split
      · exact congrArg (x :: ·) (ih x)
      · rfl

theorem perm_insert (items : List α) (x : α) : (insert lt items x).Perm (x :: items) := by
  refine List.perm_middle.trans (.of_eq ?_)
  rw [List.take_append_drop]

theorem perm_foldl_insert (start rest : List α) :
    (rest.foldl (insert lt) start).Perm (start ++ rest) := by
  induction rest generalizing start with
  | nil => rw [List.append_nil, List.foldl_nil]
  | cons x rest ih =>
      rw [List.foldl_cons]
      refine (ih _).trans (((perm_insert start x).append_right rest).trans ?_)
      exact List.perm_middle.symm

/-- A sorted list has the elements of the list. -/
theorem perm_insertionSort : (items : List α) → (insertionSort lt items).Perm items
  | [] => .refl _
  | [x] => .refl _
  | x :: y :: rest => by
      cases hlt : lt y x with
      | true =>
          simp only [insertionSort, hlt, if_true]
          refine (perm_foldl_insert _ _).trans (((List.reverse_perm _).append_right _).trans (.of_eq ?_))
          rw [List.cons_append, List.cons_append, fallingRun_append]
      | false =>
          simp only [insertionSort, hlt, Bool.false_eq_true, if_false]
          refine (perm_foldl_insert _ _).trans (.of_eq ?_)
          rw [List.cons_append, List.cons_append, risingRun_append]

end Ordering

/-! ### Values -/

namespace Value

mutual

/-- Whether a value is no name and has no name among its elements. -/
def isNameless : Value → Bool
  | name .. => false
  | list items | set items => areNameless items
  | _ => true

/-- Whether the values of a list have no names in them. -/
def areNameless : List Value → Bool
  | [] => true
  | v :: vs => isNameless v && areNameless vs

end

/-- The values of a list have no names in them. -/
abbrev AreNameless (items : List Value) : Prop := ∀ v ∈ items, v.isNameless = true

theorem areNameless_iff {items : List Value} : areNameless items = true ↔ AreNameless items := by
  induction items with
  | nil => simp [areNameless, AreNameless]
  | cons v items ih => simp [areNameless, ih, AreNameless]

@[simp] theorem isNameless_list {items : List Value} :
    (list items).isNameless = true ↔ AreNameless items := by
  rw [isNameless, areNameless_iff]

@[simp] theorem isNameless_set {items : List Value} :
    (set items).isNameless = true ↔ AreNameless items := by
  rw [isNameless, areNameless_iff]

variable {a b : List Value}

theorem areNameless_of_list {rest : List Value} (h : AreNameless (list a :: rest)) : AreNameless a :=
  isNameless_list.1 (h _ List.mem_cons_self)

theorem areNameless_of_set {rest : List Value} (h : AreNameless (set a :: rest)) : AreNameless a :=
  isNameless_set.1 (h _ List.mem_cons_self)

theorem AreNameless.tail {v : Value} (h : AreNameless (v :: a)) : AreNameless a :=
  (List.forall_mem_cons.1 h).2

theorem areNameless_map {α : Type} {f : α → Value} (hf : ∀ x, (f x).isNameless = true) (xs : List α) :
    AreNameless (xs.map f) :=
  List.forall_mem_map.2 fun x _ => hf x

theorem areNameless_rangeItems (r : Range) : AreNameless (Primitive.rangeItems r) :=
  areNameless_map (fun _ => rfl) _

theorem areNameless_append (ha : AreNameless a) (hb : AreNameless b) : AreNameless (a ++ b) :=
  List.forall_mem_append.2 ⟨ha, hb⟩

theorem areNameless_filter {p : Value → Bool} (ha : AreNameless a) : AreNameless (a.filter p) :=
  fun v hv => ha v (List.mem_of_mem_filter hv)

theorem areNameless_distinctFrom {seen : List Value} (hseen : AreNameless seen) (ha : AreNameless a) :
    AreNameless (distinctFrom seen a) := by
  induction a generalizing seen with
  | nil => exact hseen
  | cons v a ih =>
      obtain ⟨hv, ha⟩ := List.forall_mem_cons.1 ha
      refine ih ?_ ha
      split
      · exact hseen
      · exact areNameless_append hseen (List.forall_mem_singleton.2 hv)

theorem areNameless_distinct (ha : AreNameless a) : AreNameless (distinct a) :=
  areNameless_distinctFrom (List.forall_mem_nil _) ha

theorem isNameless_setOf (ha : AreNameless a) : (setOf a).isNameless = true :=
  isNameless_set.2 (areNameless_distinct ha)

end Value

open Value

/-! ### Operations -/

theorem eq_ok_of_liftM {α : Type} {x : Except Fault α} {a : α} (h : (liftM x : Outcome α) = .ok a) :
    x = .ok a := by
  cases x with
  | ok b => exact congrArg Except.ok (Except.ok.inj h)
  | error f => cases h

/-- The value of an outcome, if there is one, has no name in it. -/
def Outcome.IsNameless (x : Outcome Value) : Prop := ∀ v, x = .ok v → v.isNameless = true

namespace Outcome.IsNameless

theorem ok {v : Value} (h : v.isNameless = true) : IsNameless (.ok v) := by
  rintro _ ⟨⟩
  exact h

theorem error (e : Failure) : IsNameless (.error e) := nofun

theorem bind {α : Type} {x : Outcome α} {f : α → Outcome Value}
    (h : ∀ a, x = .ok a → IsNameless (f a)) : IsNameless (x >>= f) := by
  intro v hv
  obtain ⟨a, ha, hv⟩ := exists_of_bind_eq_ok hv
  exact h a ha v hv

end Outcome.IsNameless

namespace Primitive

open Outcome (IsNameless)

variable {args : List Value} {p : Primitive}

theorem isNameless_applyTexts : IsNameless (applyTexts p args) := by
  unfold applyTexts
  split <;> first | exact .ok rfl | exact .error _ | exact .bind fun _ _ => .ok rfl

theorem areNameless_sorted {items sortedItems : List Value} (hitems : AreNameless items)
    (h : sorted items = .ok sortedItems) : AreNameless sortedItems := by
  -- What is sorted are the values together with what they are sorted by.
  have hzip {κ : Type} {lt : κ × Value → κ × Value → Bool} (keys : List κ) :
      AreNameless ((Ordering.insertionSort lt (keys.zip items)).map Prod.snd) := by
    refine List.forall_mem_map.2 fun e he => hitems e.2 ?_
    exact (List.of_mem_zip (Ordering.perm_insertionSort _ |>.subset he)).2
  unfold sorted at h
  split at h
  · obtain ⟨keys, -, h⟩ := exists_of_bind_eq_ok h
    cases h
    exact hzip keys
  · split at h
    · cases h
      exact hzip _
    · cases h

theorem isNameless_applyLists (h : AreNameless args) : IsNameless (applyLists p args) := by
  unfold applyLists
  split
  case h_5 =>
    exact .bind fun items hitems =>
      .ok (isNameless_list.2 (areNameless_sorted (areNameless_of_list h) hitems))
  case h_6 => exact isNameless_applyTexts
  all_goals first | exact .ok rfl | exact .bind fun _ _ => .ok rfl

theorem isNameless_writtenWith (counting : Counting) (a precision : Number) :
    IsNameless (writtenWith counting a precision : Except Fault Value) := by
  intro v hv
  obtain ⟨written, -, hv⟩ := exists_of_bind_eq_ok (eq_ok_of_liftM hv)
  cases hv
  rfl

theorem isNameless_applyRounding (h : AreNameless args) : IsNameless (applyRounding p args) := by
  unfold applyRounding
  split
  case h_7 | h_8 => exact isNameless_writtenWith _ _ _
  case h_9 => exact isNameless_applyLists h
  all_goals exact .bind fun _ _ => .ok rfl

theorem isNameless_extremum (name : String) (f : Number → Number → Outcome Number) (items : List Value) :
    IsNameless (extremum name f items) := by
  refine .bind fun numbers _ => ?_
  split
  · exact .error _
  · exact .bind fun _ _ => .ok rfl

theorem isNameless_applyNumbers (h : AreNameless args) : IsNameless (applyNumbers p args) := by
  unfold applyNumbers
  split
  case h_15 | h_16 => exact isNameless_extremum _ _ _
  case h_21 | h_22 => exact .bind fun _ _ => .bind fun _ _ => .ok rfl
  case h_24 => exact .ok (isNameless_list.2 (areNameless_map (fun _ => rfl) _))
  case h_25 => exact isNameless_applyRounding h
  all_goals first | exact .ok rfl | exact .bind fun _ _ => .ok rfl

theorem isNameless_applySets (h : AreNameless args) : IsNameless (applySets p args) := by
  unfold applySets
  split
  · exact .ok (isNameless_setOf (areNameless_of_list h))
  · exact .ok (isNameless_setOf (areNameless_rangeItems _))
  · exact .ok (isNameless_setOf h)
  · refine .ok (isNameless_setOf (areNameless_distinct ?_))
    exact areNameless_append (areNameless_of_set h) (areNameless_of_set h.tail)
  · exact .ok (isNameless_setOf (areNameless_filter (areNameless_distinct (areNameless_of_set h))))
  · exact isNameless_applyNumbers h

theorem isNameless_matrixOf (rows : Option (List (List Value))) :
    IsNameless (rows.elim (.error (.fault .unsuitable)) matrixOf) := by
  cases rows with
  | none => exact .error _
  | some rows => exact .bind fun _ _ => .ok rfl

theorem isNameless_applyVectors (h : AreNameless args) : IsNameless (applyVectors p args) := by
  unfold applyVectors
  split
  case h_3 | h_4 => exact isNameless_matrixOf _
  case h_7 | h_8 => exact .bind fun _ _ => .bind fun _ _ => .bind fun _ _ => .ok rfl
  case h_13 => exact isNameless_applySets h
  all_goals first | exact .ok rfl | exact .bind fun _ _ => .ok rfl

theorem isNameless_elementOf {collection : Value} (h : collection.isNameless = true) (index : Number) :
    IsNameless (elementOf collection index) := by
  unfold elementOf
  split
  case h_6 => exact .error _
  case h_1 items =>
    refine .bind fun i _ => ?_
    split
    · rename_i v hi
      exact .ok (isNameless_list.1 h v (List.mem_of_getElem? hi))
    · exact .error _
  all_goals
    refine .bind fun i _ => ?_
    split
    · exact .ok rfl
    · exact .error _

theorem mem_of_mem_sliceOf {α : Type} {r : Range} {items slice : List α} (h : sliceOf r items = .ok slice)
    {a : α} (ha : a ∈ slice) : a ∈ items := by
  obtain ⟨start, -, h⟩ := exists_of_bind_eq_ok h
  obtain ⟨stop, -, h⟩ := exists_of_bind_eq_ok h
  cases h
  exact List.mem_of_mem_take (List.mem_of_mem_drop ha)

theorem isNameless_sliceValue {collection : Value} (h : collection.isNameless = true) (r : Range) :
    IsNameless (sliceValue collection r) := by
  unfold sliceValue
  split
  · refine .bind fun items hitems => .ok (isNameless_list.2 fun v hv => ?_)
    exact isNameless_list.1 h v (mem_of_mem_sliceOf (eq_ok_of_liftM hitems) hv)
  · exact .bind fun _ _ => .ok rfl
  · exact .bind fun _ _ => .ok rfl
  · exact .error _

theorem isNameless_applyCollections (h : AreNameless args) : IsNameless (applyCollections p args) := by
  have hrange {b : List Value} (r : Range) : (list (excluding (rangeItems r) b)).isNameless = true :=
    isNameless_list.2 (areNameless_filter (areNameless_rangeItems r))
  unfold applyCollections
  split
  case h_6 | h_7 =>
    exact .ok (isNameless_list.2 (areNameless_filter (areNameless_of_list h)))
  case h_8 | h_9 | h_10 => exact .ok (hrange _)
  case h_11 => exact .ok (isNameless_list.2 (areNameless_distinct (areNameless_of_list h)))
  case h_12 => exact .ok (isNameless_list.2 (areNameless_rangeItems _))
  case h_13 => exact .ok (isNameless_list.2 (areNameless_of_set h))
  case h_14 => exact .ok (isNameless_list.2 (areNameless_map (fun _ => rfl) _))
  case h_15 =>
    refine .ok (isNameless_list.2 (areNameless_map (fun row => ?_) _))
    exact isNameless_list.2 (areNameless_map (fun _ => rfl) _)
  case h_16 => exact isNameless_elementOf (h _ List.mem_cons_self) _
  case h_17 => exact isNameless_sliceValue (h _ List.mem_cons_self) _
  case h_18 => exact isNameless_applyVectors h
  all_goals exact .ok rfl

theorem isNameless_applyLogic (h : AreNameless args) : IsNameless (applyLogic p args) := by
  unfold applyLogic
  split
  case h_13 => exact isNameless_applyCollections h
  all_goals first | exact .ok rfl | exact .bind fun _ _ => .ok rfl

theorem isNameless_matrixPower (m : Matrix) (n : Number) : IsNameless (matrixPower m n) := by
  unfold matrixPower
  split
  · exact .error _
  · split
    · exact .error _
    · exact .bind fun _ _ => .ok rfl

theorem isNameless_applyArithmetic (h : AreNameless args) : IsNameless (applyArithmetic p args) := by
  unfold applyArithmetic
  split
  case h_1 => exact .ok (h _ List.mem_cons_self)
  case h_6 =>
    exact .ok (isNameless_list.2 (areNameless_append (areNameless_of_list h) (areNameless_of_list h.tail)))
  case h_9 => exact .ok (isNameless_list.2 (areNameless_append (areNameless_of_list h) h.tail))
  case h_10 => exact .bind fun _ _ => .bind fun _ _ => .ok rfl
  case h_14 =>
    exact .ok (isNameless_setOf (areNameless_filter (areNameless_distinct (areNameless_of_set h))))
  case h_27 => exact isNameless_matrixPower _ _
  case h_28 => exact isNameless_applyLogic h
  all_goals first | exact .ok rfl | exact .bind fun _ _ => .ok rfl

/-- What an operation without random choices makes of values without names is one. -/
theorem isNameless_applyPure (h : AreNameless args) : IsNameless (p.applyPure args) :=
  isNameless_applyArithmetic h

end Primitive

/-! #### Random choices -/

namespace Action

variable {α : Type} {items : List α}

theorem returns_ofOutcome {x : Outcome α} {P : α → Prop} (h : ∀ a, x = .ok a → P a) :
    (ofOutcome x).Returns P := by
  intro d a d' hrun
  exact h a (congrArg Prod.fst hrun)

theorem returns_throw {e : Failure} {P : α → Prop} : (throw e : Action α).Returns P := by
  intro d a d' hrun
  cases hrun

theorem returns_choose : (choose items).Returns (· ∈ items) := by
  refine returns_bind (returns_true _) fun i _ => ?_
  cases hi : items[i]? with
  | none => exact returns_throw
  | some a => exact returns_pure (List.mem_of_getElem? hi)

theorem mem_of_mem_swap {i j : Nat} {a : α} (h : a ∈ swap items i j) : a ∈ items := by
  unfold swap at h
  split at h
  · rename_i hi hj
    rcases List.mem_or_eq_of_mem_set h with h | rfl
    · rcases List.mem_or_eq_of_mem_set h with h | rfl
      · exact h
      · exact List.mem_of_getElem? hj
    · exact List.mem_of_getElem? hi
  · exact h

theorem returns_shuffleFrom (n : Nat) (items : List α) :
    (shuffleFrom n items).Returns fun shuffled => ∀ a ∈ shuffled, a ∈ items := by
  induction n generalizing items with
  | zero => exact returns_pure fun a ha => ha
  | succ n ih =>
      refine returns_bind (returns_true _) fun j _ d shuffled d' hrun a ha => ?_
      exact mem_of_mem_swap (ih _ d shuffled d' hrun a ha)

/-- What is shuffled is in the list. -/
theorem returns_shuffle (items : List α) :
    (shuffle items).Returns fun shuffled => ∀ a ∈ shuffled, a ∈ items :=
  returns_shuffleFrom _ items

end Action

/-- An action whose value has no name in it. -/
abbrev Action.IsNameless (x : Action Value) : Prop := x.Returns fun v => v.isNameless = true

namespace Primitive

variable {args : List Value}

theorem isNameless_chooseFrom (h : AreNameless args) : (chooseFrom args).IsNameless := by
  unfold chooseFrom
  split
  · exact Action.returns_throw
  · exact fun d v d' hrun => h v (Action.returns_choose d v d' hrun)

theorem isNameless_shuffled (h : AreNameless args) :
    Action.IsNameless (do return .list (← Action.shuffle args)) :=
  Action.returns_bind (Action.returns_shuffle args) fun _ hshuffled =>
    Action.returns_pure (isNameless_list.2 fun v hv => h v (hshuffled v hv))

/-- What an operation makes of values without names is one. -/
theorem isNameless_apply {p : Primitive} (h : AreNameless args) : (p.apply args).IsNameless := by
  unfold apply
  split
  · refine Action.returns_bind (Action.returns_true _) fun n _ => ?_
    exact isNameless_shuffled (areNameless_map (fun _ => rfl) _)
  · exact isNameless_shuffled (areNameless_of_list h)
  · exact isNameless_shuffled (areNameless_rangeItems _)
  · split
    · exact Action.returns_bind (Action.returns_true _) fun x _ => Action.returns_pure rfl
    · exact isNameless_chooseFrom (areNameless_rangeItems _)
  · exact isNameless_chooseFrom (areNameless_of_list h)
  · exact isNameless_chooseFrom h
  · exact Action.returns_ofOutcome (isNameless_applyPure h)

end Primitive

/-! ### Scopes -/

/-- Whether a value is a name or has no name in it. -/
def Value.isPlain : Value → Bool
  | name .. => true
  | v => v.isNameless

theorem Value.isPlain_of_isNameless {v : Value} (h : v.isNameless = true) : v.isPlain = true := by
  cases v with
  | name => rfl
  | _ => exact h

/-- Names stand as leaves of their own in a tree. -/
abbrev Tree.NamesAreLeaves (t : Tree) : Prop := t.Leaves fun v => v.isPlain = true

namespace Scope

/-- In the bodies of the custom functions of a scope names stand as leaves of their own. -/
abbrev HasPlainBodies (s : Scope) : Prop :=
  s.EachSignature fun _ f => ∀ parameters result t, f.body = .custom parameters result t → t.NamesAreLeaves

/-- The values of a scope have no names in them, and the bodies of its functions are plain. -/
structure IsNameless (s : Scope) : Prop where
  value : ∀ n v, s.value? n = some v → v.isNameless = true
  body : s.HasPlainBodies

namespace IsNameless

variable {s : Scope}

theorem child (h : s.IsNameless) : s.child.IsNameless := ⟨h.value, h.body.child⟩

theorem bind (h : s.IsNameless) (name : String) {v : Value} (hv : v.isNameless = true) :
    (s.bind name v).IsNameless := by
  refine ⟨fun n w hw => ?_, h.body⟩
  rw [value?_bind] at hw
  split at hw
  · cases hw
    exact hv
  · exact h.value n w hw

theorem bindAll (h : s.IsNameless) {bindings : List (String × Value)}
    (hbindings : ∀ b ∈ bindings, b.2.isNameless = true) : (s.bindAll bindings).IsNameless := by
  induction bindings generalizing s with
  | nil => exact h
  | cons b rest ih =>
      obtain ⟨hb, hrest⟩ := List.forall_mem_cons.1 hbindings
      exact ih (h.bind b.1 hb) hrest

theorem loopScope (h : s.IsNameless) {v : Value} (hv : v.isNameless = true) (names : Construct.LoopNames) :
    (Construct.loopScope s v names).IsNameless := by
  cases names with
  | single name => exact h.child.bind name hv
  | several names =>
      refine h.child.bindAll fun b hb => ?_
      have hb := (List.of_mem_zip hb).2
      split at hb
      · exact isNameless_list.1 hv _ hb
      · rwa [List.mem_singleton.1 hb]

/-- A custom function is evaluated with the values of its arguments. -/
theorem callScope (h : s.IsNameless) (parameters : List String) {args : List Value}
    (hargs : ∀ v ∈ args, v.isNameless = true) : (Evaluate.callScope s parameters args).IsNameless := by
  refine ⟨fun n v hv => ?_, h.body.child⟩
  have hzip : ∀ e ∈ (Table.ofList (parameters.zip args)).entries, e.2.isNameless = true :=
    Table.forall_mem_insertAll (P := fun v : Value => v.isNameless = true) (List.forall_mem_nil _)
      fun e he => hargs e.2 (List.of_mem_zip he).2
  refine Table.of_find?_insertAll (P := fun v : Value => v.isNameless = true) (h.value n) (fun e he => ?_) v hv
  obtain ⟨e', he', rfl⟩ := List.mem_map.1 he
  exact hzip e' he'

end IsNameless

end Scope

/-! ### Constructs -/

/-- What is evaluated in a scope without names has no name in it. -/
def Scope.GivesNameless (f : Scope → Action Value) : Prop := ∀ s : Scope, s.IsNameless → (f s).IsNameless

open Scope (GivesNameless)

/-- An argument whose value has no name in it, nor have its parts. -/
structure Suspended.IsNameless (a : Suspended) : Prop where
  value : GivesNameless a.value
  parts : ∀ part ∈ a.parts, GivesNameless part

theorem Action.returns_mapM {α β : Type} {f : α → Action β} {P : β → Prop} {items : List α}
    (h : ∀ a ∈ items, (f a).Returns P) : (items.mapM f).Returns fun bs => ∀ b ∈ bs, P b := by
  induction items with
  | nil => exact returns_pure (List.forall_mem_nil _)
  | cons a items ih =>
      obtain ⟨ha, hitems⟩ := List.forall_mem_cons.1 h
      rw [List.mapM_cons]
      refine returns_bind ha fun b hb => returns_bind (ih hitems) fun bs hbs => ?_
      exact returns_pure (List.forall_mem_cons.2 ⟨hb, hbs⟩)

namespace Construct

open MathExpr.Action (returns_pure returns_bind returns_true returns_throw returns_mapM)

variable {s : Scope} {a b c : Suspended}

theorem isNameless_evalConditional (hs : s.IsNameless) (hb : b.IsNameless) (hc : c.IsNameless) :
    (evalConditional s a b c).IsNameless := by
  refine returns_bind (returns_true _) fun v _ => ?_
  split
  · split
    · exact hb.value s hs
    · exact hc.value s hs
  · exact returns_throw

theorem isNameless_evalCases (hs : s.IsNameless) :
    (args : List Suspended) → (∀ a ∈ args, a.IsNameless) → (evalCases s args).IsNameless
  | [], _ => Action.returns_throw
  | [a], h => (h a List.mem_cons_self).value s hs
  | a :: b :: rest, h => by
      obtain ⟨hb, hrest⟩ := List.forall_mem_cons.1 (List.forall_mem_cons.1 h).2
      unfold evalCases
      refine returns_bind (returns_true _) fun v _ => ?_
      split
      · split
        · exact hb.value s hs
        · exact isNameless_evalCases hs rest hrest
      · exact returns_throw

theorem isNameless_evalRepetition (hs : s.IsNameless) (ha : a.IsNameless) :
    (evalRepetition s a b).IsNameless := by
  refine returns_bind (returns_true _) fun v _ => ?_
  split
  · refine returns_bind (returns_true _) fun n _ => ?_
    refine returns_bind (returns_mapM fun _ _ => ha.value s hs) fun vs hvs => ?_
    exact returns_pure (isNameless_list.2 hvs)
  · exact returns_throw

theorem returns_elements {v : Value} (hv : v.isNameless = true) : (elements v).Returns AreNameless := by
  unfold elements
  split
  · exact returns_pure (areNameless_rangeItems _)
  · exact returns_pure (isNameless_list.1 hv)
  · exact returns_pure (isNameless_set.1 hv)
  · exact returns_pure (areNameless_map (fun _ => rfl) _)
  · exact returns_throw

theorem isNameless_evalMap (hs : s.IsNameless) (ha : a.IsNameless) (hc : c.IsNameless) :
    (evalMap s a b c).IsNameless := by
  refine returns_bind (hc.value s hs) fun v hv => returns_bind (returns_elements hv) fun items hitems => ?_
  split
  · exact returns_throw
  · refine returns_bind (returns_mapM fun w hw => ?_) fun vs hvs => returns_pure (isNameless_list.2 hvs)
    exact ha.value _ (hs.loopScope (hitems w hw) _)

theorem isNameless_evalIsa (s : Scope) (a b : Suspended) : (evalIsa s a b).IsNameless := by
  refine returns_bind (returns_true _) fun v _ => ?_
  split
  · refine returns_bind (returns_true _) fun o _ => ?_
    split
    · exact returns_pure rfl
    · exact returns_bind (returns_true _) fun v _ => returns_pure rfl
  · exact returns_throw

theorem returns_isNameless_define {definitions : List (String × (Scope → Action Value))}
    (h : ∀ e ∈ definitions, GivesNameless e.2) (hs : s.IsNameless) :
    (define s definitions).Returns Scope.IsNameless := by
  induction definitions generalizing s with
  | nil => exact returns_pure hs
  | cons e rest ih =>
      obtain ⟨he, hrest⟩ := List.forall_mem_cons.1 h
      exact returns_bind (he s hs) fun v hv => ih hrest (hs.bind e.1 hv)

theorem returns_attempts {α : Type} {x : Action (Option α)} {P : α → Prop}
    (h : x.Returns fun o => ∀ v, o = some v → P v) :
    (n : Nat) → (attempts x n).Returns fun o => ∀ v, o = some v → P v
  | 0 => returns_pure nofun
  | n + 1 => by
      refine returns_bind h fun o ho => ?_
      split
      · exact returns_pure ho
      · exact returns_attempts h n

theorem isNameless_evalSatisfy (hs : s.IsNameless) (hb : b.IsNameless) (count : Action Int) :
    (evalSatisfy s a b c count).IsNameless := by
  have honce : (attemptOnce s a.tree.boundKeys b.parts c.parts).Returns
      fun o => ∀ v, o = some v → v.isNameless = true := by
    refine returns_bind (returns_isNameless_define (fun e he => ?_) hs.child) fun inner hinner => ?_
    · exact hb.parts e.2 (List.of_mem_zip he).2
    · refine returns_bind (returns_true _) fun met _ => ?_
      split
      · refine returns_pure ?_
        rintro _ ⟨⟩
        refine isNameless_list.2 fun v hv => ?_
        obtain ⟨k, -, hk⟩ := List.mem_filterMap.1 hv
        exact hinner.value k v hk
      · refine returns_pure fun v hv => ?_
        cases hv
  unfold evalSatisfy
  split
  · exact returns_throw
  · show Action.IsNameless (attemptAll s a.tree.boundKeys b.parts c.parts count)
    unfold attemptAll
    split
    · exact returns_throw
    · refine returns_bind (returns_true _) fun n _ => ?_
      refine returns_bind (returns_attempts honce n.toNat) fun o ho => ?_
      split
      · exact returns_pure (ho _ rfl)
      · exact returns_throw

/-- What a construct makes of arguments without names is one. -/
theorem isNameless_eval (hs : s.IsNameless) (c : Construct) {args : List Suspended}
    (h : ∀ a ∈ args, a.IsNameless) : (c.eval s args).IsNameless := by
  unfold Construct.eval
  split
  · exact isNameless_evalConditional hs (h _ (by simp)) (h _ (by simp))
  · exact isNameless_evalCases hs _ h
  · exact isNameless_evalRepetition hs (h _ (by simp))
  · exact isNameless_evalMap hs (h _ (by simp)) (h _ (by simp))
  · exact isNameless_evalIsa _ _ _
  · exact isNameless_evalSatisfy hs (h _ (by simp)) _
  · exact isNameless_evalSatisfy hs (h _ (by simp)) _
  · exact returns_throw

end Construct

/-! ### Trees -/

namespace Evaluate

open MathExpr.Action (returns_pure returns_bind returns_true returns_throw returns_mapM)

variable {deeper : Evaluator} {s : Scope}

/-- What an evaluator gives for the body of a custom function has no name in it. -/
abbrev KeepsNameless (f : Evaluator) : Prop :=
  ∀ ⦃s : Scope⦄ ⦃t : Tree⦄, s.IsNameless → t.NamesAreLeaves → (f s t).IsNameless

theorem isNameless_custom (hdeeper : KeepsNameless deeper) (hs : s.IsNameless) (f : Signature)
    (parameters : List String) (result : String) {t : Tree} (ht : t.NamesAreLeaves) {args : List Value}
    (hargs : AreNameless args) : (custom deeper s f parameters result t args).IsNameless := by
  refine returns_bind (hdeeper (hs.callScope parameters hargs) ht) fun v hv => ?_
  split
  · exact returns_pure hv
  · exact returns_throw

theorem isNameless_invoke (hdeeper : KeepsNameless deeper) (hs : s.IsNameless) {name : String} {f : Signature}
    (hf : f ∈ s.signatures name) {args : List Value} (hargs : AreNameless args) :
    (invoke deeper s f args).IsNameless := by
  unfold invoke
  split
  · exact Primitive.isNameless_apply hargs
  · exact returns_throw
  · rename_i hbody
    exact isNameless_custom hdeeper hs f _ _ (hs.body name f hf _ _ _ hbody) hargs

theorem isNameless_dispatch (hdeeper : KeepsNameless deeper) (hs : s.IsNameless) (h : Head) (name : String)
    {args : List Value} (hargs : AreNameless args) : (dispatch deeper s h name args).IsNameless := by
  unfold dispatch
  cases hsignatures : s.signatures name with
  | nil => exact returns_throw
  | cons f fs =>
      dsimp only
      cases hfind : (f :: fs).find? fun f => f.takes args with
      | none => exact returns_throw
      | some g =>
          have hg : g ∈ s.signatures name := by
            rw [hsignatures]
            exact List.mem_of_find?_eq_some hfind
          exact isNameless_invoke hdeeper hs hg hargs

theorem isNameless_invokeUnevaluated (hdeeper : KeepsNameless deeper) (hs : s.IsNameless) {name : String}
    {f : Signature} (hf : f ∈ s.signatures name) (count : Nat) :
    (invokeUnevaluated deeper s f count).IsNameless := by
  unfold invokeUnevaluated
  split
  · rename_i hbody
    split
    · exact isNameless_custom hdeeper hs f _ _ (hs.body name f hf _ _ _ hbody) (List.forall_mem_nil _)
    · exact returns_throw
  · exact returns_throw

theorem isNameless_leaf (hs : s.IsNameless) {v : Value} (hv : v.isPlain = true) :
    (tree deeper s false (.leaf v)).IsNameless := by
  cases v with
  | text content safe latex =>
      unfold tree text
      dsimp only
      split <;> exact returns_bind (returns_true _) fun content _ => returns_pure rfl
  | name n hints =>
      unfold tree
      split
      · rename_i hvalue
        exact returns_pure (hs.value n _ hvalue)
      · exact returns_throw
  | _ => exact returns_pure hv

/-- A tree in which names stand as leaves of their own has a value without names, and so have its
arguments. -/
theorem isNameless_suspended (hdeeper : KeepsNameless deeper) (t : Tree) (ht : t.NamesAreLeaves) :
    (suspended deeper t).IsNameless := by
  induction t using Tree.ind with
  | leaf v => exact ⟨fun s hs => isNameless_leaf hs (Tree.leaves_leaf.1 ht), List.forall_mem_nil _⟩
  | node h args ih =>
      have hargs (t : Tree) (hmem : t ∈ args) := ih t hmem (Tree.leaves_node.1 ht t hmem)
      refine ⟨fun s hs => ?_, ?_⟩
      · have hvalues : (trees deeper s false args).Returns AreNameless := by
          rw [trees_eq_mapM]
          exact returns_mapM fun t hmem => (hargs t hmem).value s hs
        show Action.IsNameless (tree deeper s false (.node h args))
        unfold tree
        split
        · exact returns_bind hvalues fun vs hvs => returns_pure (isNameless_list.2 hvs)
        · rename_i name hname
          cases h.key?.bind Construct.ofName? with
          | none => exact returns_bind hvalues fun vs hvs => isNameless_dispatch hdeeper hs h name hvs
          | some c =>
              dsimp only
              cases hsignatures : s.signatures name with
              | nil => exact returns_throw
              | cons f fs =>
                  have hf : f ∈ s.signatures name := by
                    rw [hsignatures]
                    exact List.mem_cons_self
                  dsimp only
                  split
                  · refine Construct.isNameless_eval hs _ ?_
                    rw [suspend_eq_map]
                    exact List.forall_mem_map.2 hargs
                  · exact isNameless_invokeUnevaluated hdeeper hs hf _
      · show ∀ part ∈ parts deeper (.node h args), GivesNameless part
        unfold parts
        rw [values_eq_map]
        exact List.forall_mem_map.2 fun t hmem => (hargs t hmem).value

theorem keepsNameless_atLevel (n : Nat) : KeepsNameless (atLevel n) := by
  induction n with
  | zero => exact fun _ _ _ _ => returns_throw
  | succ n ih => exact fun s t hs ht => (isNameless_suspended ih t ht).value s hs

end Evaluate

/-- Where names stand as leaves of their own in a tree, its value has no name in it. -/
theorem Scope.returns_isNameless_eval {s : Scope} (hs : s.IsNameless) {t : Tree} (ht : t.NamesAreLeaves) :
    (s.eval t).IsNameless :=
  (Evaluate.isNameless_suspended (Evaluate.keepsNameless_atLevel _) t ht).value s hs

end MathExpr
