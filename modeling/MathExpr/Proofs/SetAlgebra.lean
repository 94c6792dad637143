import MathExpr.Proofs.Equality

/-!
# The algebra of sets of values

Unions, intersections and differences of sets are without repetitions, and an element is in
them as it should be: this needs only that equality of values is symmetric and transitive
(`Value.isIn_distinct`). So sets with the same elements are equal
(`Value.eqv_setOf`), which gives the laws of the algebra of sets (`Value.SetLaws`); and
that the sizes of two sets add up to those of their union and their intersection is
counting again (`Value.length_filter_isIn_le`).
-/

namespace MathExpr.Value

variable {v w x : Value} {a b c seen items : List Value}

/-! ### Elements -/

/-- The values of a list can be built. -/
abbrev AreProper (items : List Value) : Prop := ∀ v ∈ items, v.IsProper

theorem isIn_iff : isIn x items = true ↔ ∃ v ∈ items, v.eqv x = true := List.any_eq_true

@[simp] theorem isIn_nil : isIn x [] = false := rfl

@[simp] theorem isIn_cons : isIn x (v :: items) = (v.eqv x || isIn x items) := rfl

@[simp] theorem isIn_append : isIn x (a ++ b) = (isIn x a || isIn x b) := List.any_append

/-- Equal values are in the same lists. -/
theorem isIn_of_eqv (hitems : AreProper items) (hv : v.IsProper) (hw : w.IsProper)
    (hvw : v.eqv w = true) (h : isIn v items = true) : isIn w items = true := by
  obtain ⟨u, hu, huv⟩ := isIn_iff.1 h
  exact isIn_iff.2 ⟨u, hu, eqv_trans (hitems u hu) hv hw huv hvw⟩

/-! ### Lists without repetitions -/

/-- No two values of a list are equal. -/
abbrev AreDistinct (items : List Value) : Prop := items.Pairwise fun v w => v.eqv w = false

theorem areDistinct_append_singleton (h : AreDistinct seen) (hx : isIn x seen = false) :
    AreDistinct (seen ++ [x]) := by
  refine List.pairwise_append.2 ⟨h, List.pairwise_singleton _ _, fun v hv w hw => ?_⟩
  cases List.mem_singleton.1 hw
  exact Bool.eq_false_iff.2 fun hvx => nomatch hx.symm.trans (isIn_iff.2 ⟨v, hv, hvx⟩)

theorem areDistinct_distinctFrom (h : AreDistinct seen) : AreDistinct (distinctFrom seen items) := by
  induction items generalizing seen with
  | nil => exact h
  | cons x items ih =>
      rw [distinctFrom]
      cases hx : isIn x seen with
      | true => exact ih h
      | false => exact ih (areDistinct_append_singleton h hx)

theorem areDistinct_distinct : AreDistinct (distinct items) := areDistinct_distinctFrom .nil

theorem mem_of_mem_distinctFrom (h : v ∈ distinctFrom seen items) : v ∈ seen ∨ v ∈ items := by
  induction items generalizing seen with
  | nil => exact .inl h
  | cons x items ih =>
      rw [distinctFrom] at h
      rcases ih h with h | h
      · split at h <;> simp_all
        tauto
      · exact .inr (List.mem_cons_of_mem x h)

theorem mem_of_mem_distinct (h : v ∈ distinct items) : v ∈ items := by
  simpa using mem_of_mem_distinctFrom h

/-- What is dropped as a repetition equals something that is kept. -/
theorem isIn_distinctFrom (hseen : AreProper seen) (hitems : AreProper items) (hx : x.IsProper) :
    isIn x (distinctFrom seen items) = (isIn x seen || isIn x items) := by
  induction items generalizing seen with
  | nil => simp [distinctFrom]
  | cons v items ih =>
      have hv := hitems v List.mem_cons_self
      have ih {seen} (hseen : AreProper seen) :=
        ih hseen fun w hw => hitems w (List.mem_cons_of_mem v hw)
      rw [distinctFrom]
      cases hkeep : isIn v seen with
      | true =>
          have himplies : v.eqv x = true → isIn x seen = true :=
            fun hvx => isIn_of_eqv hseen hv hx hvx hkeep
          rw [if_pos rfl, ih hseen, isIn_cons]
          grind
      | false =>
          rw [if_neg Bool.false_ne_true, ih (List.forall_mem_append.2 ⟨hseen, List.forall_mem_singleton.2 hv⟩),
            isIn_append]
          simp [Bool.or_assoc]

/-- A value is in a list without its repetitions if it is in the list. -/
theorem isIn_distinct (hitems : AreProper items) (hx : x.IsProper) :
    isIn x (distinct items) = isIn x items := by
  simpa [distinct] using isIn_distinctFrom (List.forall_mem_nil _) hitems hx

/-- A test that equal values pass alike selects by membership. -/
theorem isIn_filter {p : Value → Bool} (hp : ∀ v ∈ items, v.eqv x = true → p v = p x) :
    isIn x (items.filter p) = (isIn x items && p x) := by
  rw [Bool.eq_iff_iff, Bool.and_eq_true, isIn_iff, isIn_iff]
  constructor
  · rintro ⟨v, hv, hvx⟩
    obtain ⟨hv, hpv⟩ := List.mem_filter.1 hv
    exact ⟨⟨v, hv, hvx⟩, hp v hv hvx ▸ hpv⟩
  · rintro ⟨⟨v, hv, hvx⟩, hpx⟩
    exact ⟨v, List.mem_filter.2 ⟨hv, (hp v hv hvx).trans hpx⟩, hvx⟩

/-- Without repetitions only those values are added that have not been seen. -/
theorem distinctFrom_eq (h : AreDistinct items) :
    distinctFrom seen items = seen ++ items.filter fun v => !isIn v seen := by
  induction items generalizing seen with
  | nil => simp [distinctFrom]
  | cons x items ih =>
      obtain ⟨hx, hitems⟩ := List.pairwise_cons.1 h
      rw [distinctFrom]
      cases hseen : isIn x seen with
      | true => rw [if_pos rfl, ih hitems]; simp [hseen]
      | false =>
          have hfilter : (items.filter fun v => !isIn v (seen ++ [x])) =
              items.filter fun v => !isIn v seen :=
            List.filter_congr fun v hv => by simp [hx v hv]
          rw [if_neg Bool.false_ne_true, ih hitems, hfilter]
          simp [hseen]

theorem distinct_eq_self (h : AreDistinct items) : distinct items = items := by
  simp [distinct, distinctFrom_eq h]

theorem distinct_append (a b : List Value) : distinct (a ++ b) = distinctFrom (distinct a) b := by
  unfold distinct
  generalize [] = seen
  induction a generalizing seen with
  | nil => rfl
  | cons x a ih => exact ih _

/-! ### The operations -/

section

variable (ha : AreProper a) (hb : AreProper b)
include ha hb

theorem isIn_union (hx : x.IsProper) : isIn x (union a b) = (isIn x a || isIn x b) := by
  rw [union, isIn_distinct (List.forall_mem_append.2 ⟨ha, hb⟩) hx, isIn_append]

theorem isIn_filter_isIn (hx : x.IsProper) (p : Bool → Bool) :
    isIn x ((distinct a).filter fun v => p (isIn v b)) = (isIn x a && p (isIn x b)) := by
  rw [isIn_filter, isIn_distinct ha hx]
  intro v hv hvx
  have hv := ha v (mem_of_mem_distinct hv)
  -- Equal values are in the second set alike.
  rw [Bool.eq_iff_iff.2 ⟨isIn_of_eqv hb hv hx hvx, isIn_of_eqv hb hx hv (eqv_symm hv hx hvx)⟩]

theorem isIn_intersection (hx : x.IsProper) :
    isIn x (intersection a b) = (isIn x a && isIn x b) :=
  isIn_filter_isIn ha hb hx id

theorem isIn_minus (hx : x.IsProper) : isIn x (minus a b) = (isIn x a && !isIn x b) :=
  isIn_filter_isIn ha hb hx not

end

theorem areDistinct_union : AreDistinct (union a b) := areDistinct_distinct

theorem areDistinct_intersection : AreDistinct (intersection a b) := areDistinct_distinct.filter _

theorem areDistinct_minus : AreDistinct (minus a b) := areDistinct_distinct.filter _

/-! ### Sizes -/

/-- Of two values that are not equal at most one equals a given value. -/
theorem pairwise_not_eqv_both (ha : AreProper a) (hb : AreProper b) (hdistinct : AreDistinct a) :
    a.Pairwise fun v v' => ∀ w ∈ b, ¬(v.eqv w = true ∧ v'.eqv w = true) := by
  refine hdistinct.imp_of_mem fun {v v'} hv hv' hne w hw ⟨hvw, hvw'⟩ => ?_
  have htrans := eqv_trans (ha v hv) (hb w hw) (ha v' hv') hvw (eqv_symm (ha v' hv') (hb w hw) hvw')
  exact Bool.false_ne_true (hne.symm.trans htrans)

/-- Two lists without repetitions have as many values in common from either side. -/
theorem length_filter_isIn_le (ha : AreProper a) (hb : AreProper b) (hdistinct : AreDistinct a) :
    (a.filter fun v => isIn v b).length ≤ (b.filter fun v => isIn v a).length := by
  have hproper {a : List Value} {p : Value → Bool} (ha : AreProper a) : AreProper (a.filter p) :=
    fun v hv => ha v (List.mem_of_mem_filter hv)
  refine length_le_of_pairwise (fun v hv => ?_)
    (pairwise_not_eqv_both (hproper ha) (hproper hb) (hdistinct.filter _))
  obtain ⟨hv, hin⟩ := List.mem_filter.1 hv
  obtain ⟨w, hw, hwv⟩ := isIn_iff.1 hin
  have hvw := eqv_symm (hb w hw) (ha v hv) hwv
  exact ⟨w, List.mem_filter.2 ⟨hw, isIn_iff.2 ⟨v, hv, hvw⟩⟩, hvw⟩

theorem length_union_add_length_intersection (ha : AreProper a) (hb : AreProper b)
    (hdistincta : AreDistinct a) (hdistinctb : AreDistinct b) :
    (union a b).length + (intersection a b).length = a.length + b.length := by
  have hcommon : (a.filter fun v => isIn v b).length = (b.filter fun v => isIn v a).length :=
    Nat.le_antisymm (length_filter_isIn_le ha hb hdistincta) (length_filter_isIn_le hb ha hdistinctb)
  have hunion : union a b = a ++ b.filter fun v => !isIn v a := by
    rw [union, distinct_append, distinct_eq_self hdistincta, distinctFrom_eq hdistinctb]
  have hsplit := List.length_eq_length_filter_add (l := b) fun v => isIn v a
  rw [hunion, intersection, distinct_eq_self hdistincta, List.length_append]
  omega

/-! ### Sets -/

/-- A list is the elements of a set: their numbers are defined and no two of them are equal. -/
abbrev IsSet (items : List Value) : Prop := (set items).IsDefined

theorem isSet_iff : IsSet items ↔ (∀ v ∈ items, v.IsDefined) ∧ AreDistinct items := by
  constructor
  · intro h
    cases h with | set hitems hdistinct => exact ⟨hitems, hdistinct⟩
  · exact fun h => .set h.1 h.2

theorem IsSet.areProper (h : IsSet items) : AreProper items :=
  fun v hv => ((isSet_iff.1 h).1 v hv).isProper

theorem IsSet.areDistinct (h : IsSet items) : AreDistinct items := (isSet_iff.1 h).2

theorem isSet_distinct (h : ∀ v ∈ items, v.IsDefined) : IsSet (distinct items) :=
  isSet_iff.2 ⟨fun v hv => h v (mem_of_mem_distinct hv), areDistinct_distinct⟩

theorem isSet_union (ha : IsSet a) (hb : IsSet b) : IsSet (union a b) :=
  isSet_distinct (List.forall_mem_append.2 ⟨(isSet_iff.1 ha).1, (isSet_iff.1 hb).1⟩)

theorem isSet_filter {p : Value → Bool} (ha : IsSet a) : IsSet ((distinct a).filter p) :=
  isSet_iff.2 ⟨fun v hv => (isSet_iff.1 ha).1 v (mem_of_mem_distinct (List.mem_of_mem_filter hv)),
    areDistinct_distinct.filter p⟩

/-- The elements of a set equal some of another that has them. -/
theorem IsSet.exists_eqv (ha : IsSet a) (hb : IsSet b)
    (h : ∀ x : Value, x.IsProper → isIn x a = isIn x b) : ∀ x ∈ a, ∃ y ∈ b, x.eqv y = true := by
  intro x hx
  have hself : isIn x a = true := isIn_iff.2 ⟨x, hx, eqv_refl ((isSet_iff.1 ha).1 x hx)⟩
  obtain ⟨y, hy, hyx⟩ := isIn_iff.1 (h x (ha.areProper x hx) ▸ hself)
  exact ⟨y, hy, eqv_symm (hb.areProper y hy) (ha.areProper x hx) hyx⟩

/-- Sets with the same elements are equal. -/
theorem eqv_setOf (ha : IsSet a) (hb : IsSet b)
    (h : ∀ x : Value, x.IsProper → isIn x a = isIn x b) : (setOf a).eqv (setOf b) = true := by
  have hab := ha.exists_eqv hb h
  have hba := hb.exists_eqv ha fun x hx => (h x hx).symm
  rw [setOf, setOf, distinct_eq_self ha.areDistinct, distinct_eq_self hb.areDistinct]
  refine set_eqv_iff.2 ⟨b, rfl, Nat.le_antisymm ?_ ?_, hab⟩
  · exact length_le_of_pairwise hab (pairwise_not_eqv_both ha.areProper hb.areProper ha.areDistinct)
  · exact length_le_of_pairwise hba (pairwise_not_eqv_both hb.areProper ha.areProper hb.areDistinct)

/-- The algebra of three sets: what is in the union, the intersection and the difference of the first
two, none of which has repetitions, and how the operations go together. -/
structure SetLaws (a b c : List Value) : Prop where
  areDistinct_union : AreDistinct (union a b)
  areDistinct_intersection : AreDistinct (intersection a b)
  areDistinct_minus : AreDistinct (minus a b)
  isIn_union : ∀ x : Value, x.IsProper → isIn x (union a b) = (isIn x a || isIn x b)
  isIn_intersection : ∀ x : Value, x.IsProper → isIn x (intersection a b) = (isIn x a && isIn x b)
  isIn_minus : ∀ x : Value, x.IsProper → isIn x (minus a b) = (isIn x a && !isIn x b)
  union_comm : (setOf (union a b)).eqv (setOf (union b a)) = true
  intersection_comm : (setOf (intersection a b)).eqv (setOf (intersection b a)) = true
  union_assoc : (setOf (union (union a b) c)).eqv (setOf (union a (union b c))) = true
  intersection_assoc :
    (setOf (intersection (intersection a b) c)).eqv (setOf (intersection a (intersection b c))) = true
  union_intersection :
    (setOf (union a (intersection b c))).eqv (setOf (intersection (union a b) (union a c))) = true
  intersection_union :
    (setOf (intersection a (union b c))).eqv (setOf (union (intersection a b) (intersection a c))) = true
  length_add : a.length + b.length = (union a b).length + (intersection a b).length

theorem setLaws (ha : IsSet a) (hb : IsSet b) (hc : IsSet c) : SetLaws a b c := by
  have hunion {a b : List Value} (ha : IsSet a) (hb : IsSet b) (x : Value) (hx : x.IsProper) :=
    isIn_union ha.areProper hb.areProper hx
  have hintersection {a b : List Value} (ha : IsSet a) (hb : IsSet b) (x : Value) (hx : x.IsProper) :=
    isIn_intersection ha.areProper hb.areProper hx
  have hab := isSet_union ha hb
  have hbc := isSet_union hb hc
  have hac := isSet_union ha hc
  have hab' : IsSet (intersection a b) := isSet_filter ha
  have hac' : IsSet (intersection a c) := isSet_filter ha
  have hbc' : IsSet (intersection b c) := isSet_filter hb
  -- Each law is one of the algebra of truth values, taken at each element.
  exact
    { areDistinct_union
      areDistinct_intersection
      areDistinct_minus
      isIn_union := hunion ha hb
      isIn_intersection := hintersection ha hb
      isIn_minus := fun x hx => isIn_minus ha.areProper hb.areProper hx
      union_comm := eqv_setOf hab (isSet_union hb ha) fun x hx => by
        rw [hunion ha hb x hx, hunion hb ha x hx, Bool.or_comm]
      intersection_comm := eqv_setOf hab' (isSet_filter hb) fun x hx => by
        rw [hintersection ha hb x hx, hintersection hb ha x hx, Bool.and_comm]
      union_assoc := eqv_setOf (isSet_union hab hc) (isSet_union ha hbc) fun x hx => by
        rw [hunion hab hc x hx, hunion ha hb x hx, hunion ha hbc x hx, hunion hb hc x hx, Bool.or_assoc]
      intersection_assoc := eqv_setOf (isSet_filter hab') (isSet_filter ha) fun x hx => by
        rw [hintersection hab' hc x hx, hintersection ha hb x hx, hintersection ha hbc' x hx,
          hintersection hb hc x hx, Bool.and_assoc]
      union_intersection := eqv_setOf (isSet_union ha hbc') (isSet_filter hab) fun x hx => by
        rw [hunion ha hbc' x hx, hintersection hb hc x hx, hintersection hab hac x hx,
          hunion ha hb x hx, hunion ha hc x hx, Bool.or_and_distrib_left]
      intersection_union := eqv_setOf (isSet_filter ha) (isSet_union hab' hac') fun x hx => by
        rw [hintersection ha hbc x hx, hunion hb hc x hx, hunion hab' hac' x hx,
          hintersection ha hb x hx, hintersection ha hc x hx, Bool.and_or_distrib_left]
      length_add := (length_union_add_length_intersection ha.areProper hb.areProper ha.areDistinct
        hb.areDistinct).symm }

/-- Equality is an equivalence of the values without undefined numbers, and sets of them obey the laws
of the algebra of sets. -/
theorem equivalence_and_setLaws :
    (Equivalence fun v w : {v : Value // v.IsDefined} => v.1.eqv w.1 = true) ∧
      ∀ a b c : List Value, IsSet a → IsSet b → IsSet c → SetLaws a b c :=
  ⟨{ refl := fun v => eqv_refl v.2
     symm := fun {v w} => eqv_symm v.2.isProper w.2.isProper
     trans := fun {u v w} => eqv_trans u.2.isProper v.2.isProper w.2.isProper },
    fun _ _ _ => setLaws⟩

theorem setLaws_nested :
    let a := [set [nat 1, nat 2], list [nat 1]]
    let b := [set [nat 2, nat 1]]
    let c := [plainText "1"]
    IsSet a ∧ IsSet b ∧ IsSet c ∧ SetLaws a b c := by
  have hone : (nat 1).IsDefined := .number (by decide +kernel) (by decide +kernel)
  have htwo : (nat 2).IsDefined := .number (by decide +kernel) (by decide +kernel)
  have hlist : (list [nat 1]).IsDefined := .list (List.forall_mem_singleton.2 hone)
  have hset : (set [nat 1, nat 2]).IsDefined :=
    .set (List.forall_mem_cons.2 ⟨hone, List.forall_mem_singleton.2 htwo⟩) (by decide +kernel)
  have hset' : (set [nat 2, nat 1]).IsDefined :=
    .set (List.forall_mem_cons.2 ⟨htwo, List.forall_mem_singleton.2 hone⟩) (by decide +kernel)
  have ha : IsSet [set [nat 1, nat 2], list [nat 1]] :=
    isSet_iff.2 ⟨List.forall_mem_cons.2 ⟨hset, List.forall_mem_singleton.2 hlist⟩, by decide +kernel⟩
  have hb : IsSet [set [nat 2, nat 1]] :=
    isSet_iff.2 ⟨List.forall_mem_singleton.2 hset', by decide +kernel⟩
  have hc : IsSet [plainText "1"] :=
    isSet_iff.2 ⟨List.forall_mem_singleton.2 .text, by decide +kernel⟩
  exact ⟨ha, hb, hc, equivalence_and_setLaws.2 _ _ _ ha hb hc⟩

end MathExpr.Value
