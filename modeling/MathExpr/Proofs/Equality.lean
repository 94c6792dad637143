import MathExpr.Proofs.FiniteNumbers
import MathExpr.Value.Sets
import Mathlib.Data.Fintype.Card
import Mathlib.Data.List.Forall2

/-!
# Equality of values

Equality of values is symmetric and transitive on all values that can be built
(`Value.eqv_symm`, `Value.eqv_trans`), and each value without an undefined number equals
itself (`Value.eqv_refl`). A value can be built (`Value.Proper`) if the rows of its
matrices have one width and no set in it has two equal elements.

Sets are compared in one direction only, with their sizes. That this is symmetric is a
matter of counting: a map between lists of the same length that takes no two places to
the same place meets all places (`exists_left_of_pairwise`).
-/

namespace MathExpr

/-! ### Counting -/

section

variable {α β : Type} {r : α → β → Prop} {xs : List α} {ys : List β}

/-- If each element of a list is related to some element of another, and no two places to the same,
then there is a map of places that says so. -/
theorem exists_injective_of_pairwise (htotal : ∀ x ∈ xs, ∃ y ∈ ys, r x y)
    (hpairwise : xs.Pairwise fun x x' => ∀ y ∈ ys, ¬(r x y ∧ r x' y)) :
    ∃ f : Fin xs.length → Fin ys.length, Function.Injective f ∧ ∀ i, r xs[i] ys[f i] := by
  have hplace (i : Fin xs.length) : ∃ j : Fin ys.length, r xs[i] ys[j] := by
    obtain ⟨y, hy, hr⟩ := htotal xs[i] (List.getElem_mem i.isLt)
    obtain ⟨j, hj, rfl⟩ := List.mem_iff_getElem.1 hy
    exact ⟨⟨j, hj⟩, hr⟩
  choose f hf using hplace
  refine ⟨f, fun i j hij => ?_, hf⟩
  by_contra hne
  -- Of two places with one image, the one that comes first excludes the other.
  have hexcluded {i j : Fin xs.length} (hlt : i < j) (hij : f i = f j) : False :=
    List.pairwise_iff_getElem.1 hpairwise i j i.isLt j.isLt hlt _ (List.getElem_mem (f i).isLt)
      ⟨hf i, by rw [hij]; exact hf j⟩
  rcases Nat.lt_or_gt_of_ne (Fin.val_ne_of_ne hne) with hlt | hlt
  · exact hexcluded hlt hij
  · exact hexcluded hlt hij.symm

theorem length_le_of_pairwise (htotal : ∀ x ∈ xs, ∃ y ∈ ys, r x y)
    (hpairwise : xs.Pairwise fun x x' => ∀ y ∈ ys, ¬(r x y ∧ r x' y)) : xs.length ≤ ys.length := by
  obtain ⟨f, hf, -⟩ := exists_injective_of_pairwise htotal hpairwise
  simpa using Fintype.card_le_of_injective f hf

/-- Between lists of the same length such a map meets all places. -/
theorem exists_left_of_pairwise (htotal : ∀ x ∈ xs, ∃ y ∈ ys, r x y)
    (hpairwise : xs.Pairwise fun x x' => ∀ y ∈ ys, ¬(r x y ∧ r x' y))
    (hlength : xs.length = ys.length) {y : β} (hy : y ∈ ys) : ∃ x ∈ xs, r x y := by
  obtain ⟨f, hf, hr⟩ := exists_injective_of_pairwise htotal hpairwise
  have hbijective : Function.Bijective f :=
    (Fintype.bijective_iff_injective_and_card f).2 ⟨hf, by simp [hlength]⟩
  obtain ⟨j, hj, rfl⟩ := List.mem_iff_getElem.1 hy
  obtain ⟨i, hi⟩ := hbijective.surjective ⟨j, hj⟩
  exact ⟨xs[i], List.getElem_mem i.isLt, by simpa [hi] using hr i⟩

end

/-! ### Lists -/

section

variable {α : Type} {r : α → α → Prop} {xs ys zs : List α}

theorem forall₂_symm_of_mem (h : ∀ x ∈ xs, ∀ y ∈ ys, r x y → r y x) (hxy : List.Forall₂ r xs ys) :
    List.Forall₂ r ys xs := by
  induction hxy with
  | nil => exact .nil
  | cons hr _ ih =>
      refine .cons (h _ List.mem_cons_self _ List.mem_cons_self hr) (ih fun x hx y hy => ?_)
      exact h x (List.mem_cons_of_mem _ hx) y (List.mem_cons_of_mem _ hy)

theorem forall₂_trans_of_mem (h : ∀ x ∈ xs, ∀ y ∈ ys, ∀ z ∈ zs, r x y → r y z → r x z)
    (hxy : List.Forall₂ r xs ys) (hyz : List.Forall₂ r ys zs) : List.Forall₂ r xs zs := by
  induction hxy generalizing zs with
  | nil => exact hyz
  | cons hr _ ih =>
      cases hyz with
      | cons hr' hyz =>
          refine .cons (h _ List.mem_cons_self _ List.mem_cons_self _ List.mem_cons_self hr hr') ?_
          refine ih (fun x hx y hy z hz => ?_) hyz
          exact h x (List.mem_cons_of_mem _ hx) y (List.mem_cons_of_mem _ hy) z
            (List.mem_cons_of_mem _ hz)

end

/-! ### Numbers -/

namespace Real

variable {x y z : Float}

theorem beq_comm (x y : Float) : (x == y) = (y == x) := by
  rw [Bool.eq_iff_iff, Float.beq_iff_ne_nan_and_eq, Float.beq_iff_ne_nan_and_eq]
  grind

theorem beq_trans (hxy : (x == y) = true) (hyz : (y == z) = true) : (x == z) = true := by
  have hzeros : (0 : Float) ≠ -0 := by decide +kernel
  rw [Float.beq_iff_ne_nan_and_eq] at *
  grind

/-- A number that is not undefined equals itself. -/
theorem beq_refl (h : x.isNaN = false) : (x == x) = true := by
  rw [Float.isNaN_eq_decide_eq_nan, decide_eq_false_iff_not] at h
  exact Float.beq_self_iff.2 h

end Real

/-- Lists of numbers of the same length are equal if they are at all places. -/
theorem all_zipWith_beq_iff {xs ys : List Float} (h : xs.length = ys.length) :
    (List.zipWith (· == ·) xs ys).all id = true ↔
      ∀ i, (xs.getD i 0.0 == ys.getD i 0.0) = true := by
  induction xs generalizing ys with
  | nil =>
      obtain rfl := List.eq_nil_of_length_eq_zero h.symm
      have hzero : ((0.0 : Float) == 0.0) = true := by decide +kernel
      simp [hzero]
  | cons x xs ih =>
      obtain ⟨y, ys, rfl⟩ := List.exists_cons_of_length_eq_add_one h.symm
      rw [List.zipWith_cons_cons, List.all_cons, Bool.and_eq_true, ih (Nat.succ.inj h)]
      refine ⟨fun hall i => ?_, fun hall => ⟨hall 0, fun i => hall (i + 1)⟩⟩
      cases i with
      | zero => exact hall.1
      | succ i => exact hall.2 i

namespace Entries

theorem length_pad {n : Nat} {xs : List Float} (h : xs.length ≤ n) : (pad n xs).length = n := by
  simp [pad, h]

theorem getD_pad (n : Nat) (xs : List Float) (i : Nat) : (pad n xs).getD i 0.0 = xs.getD i 0.0 := by
  simp only [pad, List.getD_eq_getElem?_getD, List.getElem?_append, List.getElem?_replicate]
  grind

/-- Vectors are equal if they are at all places, with zeros behind their ends. -/
theorem eq_iff {xs ys : List Float} :
    eq xs ys = true ↔ ∀ i, (xs.getD i 0.0 == ys.getD i 0.0) = true := by
  rw [eq, all_zipWith_beq_iff]
  · simp only [getD_pad]
  · rw [length_pad (Nat.le_max_left ..), length_pad (Nat.le_max_right ..)]

end Entries

namespace Matrix

/-- All rows have as many entries as the matrix has columns. -/
def IsRectangular (m : Matrix) : Prop := ∀ row ∈ m.rows, row.length = m.columns

theorem length_entries {m : Matrix} (h : m.IsRectangular) :
    m.entries.length = m.height * m.columns := by
  rw [entries, List.length_flatten, List.map_congr_left h]
  simp [height]

theorem eq_iff {a b : Matrix} (ha : a.IsRectangular) (hb : b.IsRectangular) :
    a.eq b = true ↔ a.height = b.height ∧ a.columns = b.columns ∧
      ∀ i, (a.entries.getD i 0.0 == b.entries.getD i 0.0) = true := by
  simp only [Matrix.eq, Bool.and_eq_true, beq_iff_eq, and_assoc]
  refine and_congr_right fun hheight => and_congr_right fun hcolumns => ?_
  rw [all_zipWith_beq_iff]
  rw [length_entries ha, length_entries hb, hheight, hcolumns]

end Matrix

/-! ### Values -/

namespace Value

/-- A value that can be built of numbers with a property: the rows of its matrices have one width, and
no set in it has two equal elements. -/
inductive Proper (P : Float → Prop) : Value → Prop
  | number {n : Number} (hre : P n.re) (him : P n.im) : Proper P (number n)
  | text {s : String} {safe latex : Bool} : Proper P (text s safe latex)
  | boolean {b : Bool} : Proper P (boolean b)
  | name {s : String} {hints : List String} : Proper P (name s hints)
  | list {items : List Value} (hitems : ∀ v ∈ items, Proper P v) : Proper P (list items)
  | set {items : List Value} (hitems : ∀ v ∈ items, Proper P v)
      (hdistinct : items.Pairwise fun v w => v.eqv w = false) : Proper P (set items)
  | vector {entries : List Float} (hentries : ∀ x ∈ entries, P x) : Proper P (vector entries)
  | matrix {m : Matrix} (hrows : m.IsRectangular) (hentries : ∀ x ∈ m.entries, P x) :
      Proper P (matrix m)
  | range {r : Range} (hstart : P r.start) (hstop : P r.stop) (hstep : P r.step) : Proper P (range r)

/-- A value that can be built. -/
abbrev IsProper : Value → Prop := Proper fun _ => True

/-- A value that can be built of numbers that are not undefined. -/
abbrev IsDefined : Value → Prop := Proper fun x => x.isNaN = false

theorem Proper.imp {P Q : Float → Prop} (hPQ : ∀ x, P x → Q x) {v : Value} (h : v.Proper P) :
    v.Proper Q := by
  induction h with
  | number hre him => exact .number (hPQ _ hre) (hPQ _ him)
  | text => exact .text
  | boolean => exact .boolean
  | name => exact .name
  | list _ ih => exact .list ih
  | set _ hdistinct ih => exact .set ih hdistinct
  | vector hentries => exact .vector fun x hx => hPQ x (hentries x hx)
  | matrix hrows hentries => exact .matrix hrows fun x hx => hPQ x (hentries x hx)
  | range hstart hstop hstep => exact .range (hPQ _ hstart) (hPQ _ hstop) (hPQ _ hstep)

theorem IsDefined.isProper {v : Value} (h : v.IsDefined) : v.IsProper := h.imp fun _ _ => trivial

/-! What equals a value of some kind. -/

section

variable {v : Value}

attribute [local simp] eqv eqvAll subset

theorem eqvAll_iff {xs ys : List Value} :
    eqvAll xs ys = true ↔ List.Forall₂ (fun x y => x.eqv y = true) xs ys := by
  induction xs generalizing ys with
  | nil => cases ys <;> simp
  | cons x xs ih => cases ys <;> simp [ih]

theorem subset_iff {xs ys : List Value} :
    subset xs ys = true ↔ ∀ x ∈ xs, ∃ y ∈ ys, x.eqv y = true := by
  induction xs with
  | nil => simp
  | cons x xs ih => simp [ih]

theorem number_eqv_iff {n : Number} :
    (number n).eqv v = true ↔
      ∃ m, v = number m ∧ (n.re == m.re) = true ∧ (n.im == m.im) = true := by
  cases v <;> simp [Number.eq]

theorem text_eqv_iff {s : String} {safe latex : Bool} :
    (text s safe latex).eqv v = true ↔ ∃ safe' latex', v = text s safe' latex' := by
  cases v <;> simp
  exact eq_comm

theorem boolean_eqv_iff {b : Bool} : (boolean b).eqv v = true ↔ v = boolean b := by
  cases v <;> simp
  exact eq_comm

theorem name_eqv_iff {s : String} {hints : List String} :
    (name s hints).eqv v = true ↔ ∃ s', v = name s' hints ∧ Text.lower s = Text.lower s' := by
  cases v <;> simp
  grind

theorem list_eqv_iff {xs : List Value} :
    (list xs).eqv v = true ↔ ∃ ys, v = list ys ∧ List.Forall₂ (fun x y => x.eqv y = true) xs ys := by
  cases v <;> simp [eqvAll_iff]

theorem set_eqv_iff {xs : List Value} :
    (set xs).eqv v = true ↔ ∃ ys, v = set ys ∧ xs.length = ys.length ∧
      ∀ x ∈ xs, ∃ y ∈ ys, x.eqv y = true := by
  cases v <;> simp [subset_iff]

theorem vector_eqv_iff {xs : List Float} :
    (vector xs).eqv v = true ↔ ∃ ys, v = vector ys ∧
      ∀ i, (xs.getD i 0.0 == ys.getD i 0.0) = true := by
  cases v <;> simp [Entries.eq_iff]

theorem matrix_eqv_iff {a : Matrix} :
    (matrix a).eqv v = true ↔ ∃ b, v = matrix b ∧ a.eq b = true := by
  cases v <;> simp

theorem range_eqv_iff {a : Range} :
    (range a).eqv v = true ↔ ∃ b, v = range b ∧ (a.start == b.start) = true ∧
      (a.stop == b.stop) = true ∧ (a.step == b.step) = true := by
  cases v <;> simp [Range.eq, and_assoc]

end

/-! The three laws. -/

/-- A value without undefined numbers equals itself. -/
theorem eqv_refl {v : Value} (h : v.IsDefined) : v.eqv v = true := by
  have hentry {xs : List Float} (hxs : ∀ x ∈ xs, x.isNaN = false) (i : Nat) :
      (xs.getD i 0.0 == xs.getD i 0.0) = true := by
    refine Real.beq_refl ?_
    rw [List.getD_eq_getElem?_getD]
    cases hi : xs[i]? with
    | none => decide +kernel
    | some x => exact hxs x (List.mem_of_getElem? hi)
  induction h with
  | number hre him => exact number_eqv_iff.2 ⟨_, rfl, Real.beq_refl hre, Real.beq_refl him⟩
  | text => exact text_eqv_iff.2 ⟨_, _, rfl⟩
  | boolean => exact boolean_eqv_iff.2 rfl
  | name => exact name_eqv_iff.2 ⟨_, rfl, rfl⟩
  | list _ ih => exact list_eqv_iff.2 ⟨_, rfl, List.forall₂_same.2 ih⟩
  | set _ _ ih => exact set_eqv_iff.2 ⟨_, rfl, rfl, fun x hx => ⟨x, hx, ih x hx⟩⟩
  | vector hentries => exact vector_eqv_iff.2 ⟨_, rfl, hentry hentries⟩
  | matrix hrows hentries =>
      exact matrix_eqv_iff.2 ⟨_, rfl, (Matrix.eq_iff hrows hrows).2 ⟨rfl, rfl, hentry hentries⟩⟩
  | range hstart hstop hstep =>
      exact range_eqv_iff.2
        ⟨_, rfl, Real.beq_refl hstart, Real.beq_refl hstop, Real.beq_refl hstep⟩

/-- Equality of values is transitive. -/
theorem eqv_trans {u v w : Value} (hu : u.IsProper) (hv : v.IsProper) (hw : w.IsProper)
    (huv : u.eqv v = true) (hvw : v.eqv w = true) : u.eqv w = true := by
  induction hu generalizing v w with
  | number =>
      obtain ⟨m, rfl, hre, him⟩ := number_eqv_iff.1 huv
      obtain ⟨k, rfl, hre', him'⟩ := number_eqv_iff.1 hvw
      exact number_eqv_iff.2 ⟨k, rfl, Real.beq_trans hre hre', Real.beq_trans him him'⟩
  | text =>
      obtain ⟨_, _, rfl⟩ := text_eqv_iff.1 huv
      obtain ⟨_, _, rfl⟩ := text_eqv_iff.1 hvw
      exact text_eqv_iff.2 ⟨_, _, rfl⟩
  | boolean =>
      obtain rfl := boolean_eqv_iff.1 huv
      exact hvw
  | name =>
      obtain ⟨s, rfl, hs⟩ := name_eqv_iff.1 huv
      obtain ⟨s', rfl, hs'⟩ := name_eqv_iff.1 hvw
      exact name_eqv_iff.2 ⟨s', rfl, hs.trans hs'⟩
  | @list xs _ ih =>
      obtain ⟨ys, rfl, hxy⟩ := list_eqv_iff.1 huv
      obtain ⟨zs, rfl, hyz⟩ := list_eqv_iff.1 hvw
      cases hv with | list hys =>
      cases hw with | list hzs =>
      exact list_eqv_iff.2 ⟨zs, rfl,
        forall₂_trans_of_mem (fun x hx y hy z hz => ih x hx (hys y hy) (hzs z hz)) hxy hyz⟩
  | set _ _ ih =>
      obtain ⟨ys, rfl, hlength, hxy⟩ := set_eqv_iff.1 huv
      obtain ⟨zs, rfl, hlength', hyz⟩ := set_eqv_iff.1 hvw
      cases hv with | set hys _ =>
      cases hw with | set hzs _ =>
      refine set_eqv_iff.2 ⟨zs, rfl, hlength.trans hlength', fun x hx => ?_⟩
      obtain ⟨y, hy, hxy⟩ := hxy x hx
      obtain ⟨z, hz, hyz⟩ := hyz y hy
      exact ⟨z, hz, ih x hx (hys y hy) (hzs z hz) hxy hyz⟩
  | vector =>
      obtain ⟨ys, rfl, hxy⟩ := vector_eqv_iff.1 huv
      obtain ⟨zs, rfl, hyz⟩ := vector_eqv_iff.1 hvw
      exact vector_eqv_iff.2 ⟨zs, rfl, fun i => Real.beq_trans (hxy i) (hyz i)⟩
  | matrix ha =>
      obtain ⟨b, rfl, hab⟩ := matrix_eqv_iff.1 huv
      obtain ⟨c, rfl, hbc⟩ := matrix_eqv_iff.1 hvw
      cases hv with | matrix hb _ =>
      cases hw with | matrix hc _ =>
      obtain ⟨hheight, hcolumns, hab⟩ := (Matrix.eq_iff ha hb).1 hab
      obtain ⟨hheight', hcolumns', hbc⟩ := (Matrix.eq_iff hb hc).1 hbc
      exact matrix_eqv_iff.2 ⟨c, rfl, (Matrix.eq_iff ha hc).2
        ⟨hheight.trans hheight', hcolumns.trans hcolumns', fun i => Real.beq_trans (hab i) (hbc i)⟩⟩
  | range =>
      obtain ⟨b, rfl, hstart, hstop, hstep⟩ := range_eqv_iff.1 huv
      obtain ⟨c, rfl, hstart', hstop', hstep'⟩ := range_eqv_iff.1 hvw
      exact range_eqv_iff.2 ⟨c, rfl, Real.beq_trans hstart hstart', Real.beq_trans hstop hstop',
        Real.beq_trans hstep hstep'⟩

/-- Equality of values is symmetric. -/
theorem eqv_symm {v w : Value} (hv : v.IsProper) (hw : w.IsProper) (h : v.eqv w = true) :
    w.eqv v = true := by
  induction hv generalizing w with
  | number =>
      obtain ⟨m, rfl, hre, him⟩ := number_eqv_iff.1 h
      exact number_eqv_iff.2 ⟨_, rfl, by rwa [Real.beq_comm], by rwa [Real.beq_comm]⟩
  | text =>
      obtain ⟨_, _, rfl⟩ := text_eqv_iff.1 h
      exact text_eqv_iff.2 ⟨_, _, rfl⟩
  | boolean =>
      obtain rfl := boolean_eqv_iff.1 h
      exact h
  | name =>
      obtain ⟨s, rfl, hs⟩ := name_eqv_iff.1 h
      exact name_eqv_iff.2 ⟨_, rfl, hs.symm⟩
  | @list xs _ ih =>
      obtain ⟨ys, rfl, hxy⟩ := list_eqv_iff.1 h
      cases hw with | list hys =>
      exact list_eqv_iff.2 ⟨xs, rfl, forall₂_symm_of_mem (fun x hx y hy => ih x hx (hys y hy)) hxy⟩
  | @set xs hxs hdistinct ih =>
      obtain ⟨ys, rfl, hlength, hxy⟩ := set_eqv_iff.1 h
      cases hw with | set hys _ =>
      refine set_eqv_iff.2 ⟨xs, rfl, hlength.symm, fun y hy => ?_⟩
      -- Two elements that equal the same element equal each other.
      have hpairwise : xs.Pairwise fun x x' => ∀ y ∈ ys, ¬(x.eqv y = true ∧ x'.eqv y = true) := by
        refine hdistinct.imp_of_mem fun {x x'} hx hx' hne y hy hboth => ?_
        rw [eqv_trans (hxs x hx) (hys y hy) (hxs x' hx') hboth.1
          (ih x' hx' (hys y hy) hboth.2)] at hne
        cases hne
      obtain ⟨x, hx, hxy⟩ := exists_left_of_pairwise hxy hpairwise hlength hy
      exact ⟨x, hx, ih x hx (hys y hy) hxy⟩
  | vector =>
      obtain ⟨ys, rfl, hxy⟩ := vector_eqv_iff.1 h
      exact vector_eqv_iff.2 ⟨_, rfl, fun i => by rw [Real.beq_comm]; exact hxy i⟩
  | matrix ha =>
      obtain ⟨b, rfl, hab⟩ := matrix_eqv_iff.1 h
      cases hw with | matrix hb _ =>
      obtain ⟨hheight, hcolumns, hab⟩ := (Matrix.eq_iff ha hb).1 hab
      exact matrix_eqv_iff.2 ⟨_, rfl, (Matrix.eq_iff hb ha).2
        ⟨hheight.symm, hcolumns.symm, fun i => by rw [Real.beq_comm]; exact hab i⟩⟩
  | range =>
      obtain ⟨b, rfl, hstart, hstop, hstep⟩ := range_eqv_iff.1 h
      exact range_eqv_iff.2
        ⟨_, rfl, by rwa [Real.beq_comm], by rwa [Real.beq_comm], by rwa [Real.beq_comm]⟩

theorem eqv_comm {v w : Value} (hv : v.IsProper) (hw : w.IsProper) : v.eqv w = w.eqv v :=
  Bool.eq_iff_iff.2 ⟨eqv_symm hv hw, eqv_symm hw hv⟩

end Value

end MathExpr
