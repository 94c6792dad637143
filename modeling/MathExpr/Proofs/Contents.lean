import MathExpr.Display.Source
import MathExpr.Library.Primitive
import MathExpr.Proofs.ExactArithmetic

/-!
# Contents of values

What values of integers, texts and lists are made of, apart from the sign of zero and the
marks on texts. Values with the same contents are equal, and they are written alike.
-/

namespace MathExpr

/-- What a value is made of. -/
inductive Content where
  | integer (n : Int)
  | text (s : String)
  | list (items : List Content)

/-- The kind of the values with some contents. -/
def Content.kind : Content → String
  | integer _ => "number"
  | text _ => "string"
  | list _ => "list"

namespace Value

mutual

/-- What a value is made of, if it is made of integers, texts and lists. -/
def content? : Value → Option Content
  | number n => n.int?.map .integer
  | text s _ _ => some (.text s)
  | list items => (contents? items).map .list
  | _ => none

/-- What the values of a list are made of. -/
def contents? : List Value → Option (List Content)
  | [] => some []
  | v :: vs => (content? v).bind fun c => (contents? vs).map (c :: ·)

end

theorem contents?_cons_eq_some {v : Value} {vs : List Value} {cs : List Content} :
    contents? (v :: vs) = some cs ↔
      ∃ c rest, v.content? = some c ∧ contents? vs = some rest ∧ cs = c :: rest := by
  rw [contents?, Option.bind_eq_some_iff]
  constructor
  · rintro ⟨c, hc, hcs⟩
    obtain ⟨rest, hrest, rfl⟩ := Option.map_eq_some_iff.1 hcs
    exact ⟨c, rest, hc, hrest, rfl⟩
  · rintro ⟨c, rest, hc, hrest, rfl⟩
    exact ⟨c, hc, by rw [hrest]; rfl⟩

theorem eq_nil_of_contents? {vs : List Value} (h : contents? vs = some []) : vs = [] := by
  cases vs with
  | nil => rfl
  | cons v rest =>
      obtain ⟨_, _, -, -, heq⟩ := contents?_cons_eq_some.1 h
      cases heq

theorem exists_of_contents?_cons {vs : List Value} {c : Content} {cs : List Content}
    (h : contents? vs = some (c :: cs)) :
    ∃ v rest, vs = v :: rest ∧ v.content? = some c ∧ contents? rest = some cs := by
  cases vs with
  | nil => cases h
  | cons v rest =>
      obtain ⟨_, _, hc, hcs, heq⟩ := contents?_cons_eq_some.1 h
      cases heq
      exact ⟨v, rest, rfl, hc, hcs⟩

theorem contents?_append {vs ws : List Value} {cs ds : List Content} (hvs : contents? vs = some cs)
    (hws : contents? ws = some ds) : contents? (vs ++ ws) = some (cs ++ ds) := by
  induction vs generalizing cs with
  | nil =>
      cases hvs
      exact hws
  | cons v vs ih =>
      obtain ⟨c, rest, hc, hrest, rfl⟩ := contents?_cons_eq_some.1 hvs
      exact contents?_cons_eq_some.2 ⟨c, rest ++ ds, hc, ih hrest, rfl⟩

/-- A value with contents is an integer, a text, or a list. -/
theorem content?_cases {v : Value} {c : Content} (h : v.content? = some c) :
    (∃ x n, v = .real x ∧ Real.int? x = some n ∧ c = .integer n) ∨
      (∃ s safe latex, v = .text s safe latex ∧ c = .text s) ∨
        ∃ items cs, v = .list items ∧ contents? items = some cs ∧ c = .list cs := by
  cases v with
  | number a =>
      obtain ⟨n, hn, rfl⟩ := Option.map_eq_some_iff.1 h
      cases a with
      | real x => exact .inl ⟨x, n, rfl, hn, rfl⟩
      | complex z => cases hn
  | text s safe latex =>
      cases h
      exact .inr (.inl ⟨s, safe, latex, rfl, rfl⟩)
  | list items =>
      obtain ⟨cs, hcs, rfl⟩ := Option.map_eq_some_iff.1 h
      exact .inr (.inr ⟨items, cs, rfl, hcs, rfl⟩)
  | _ => cases h

theorem kind_of_content? {v : Value} {c : Content} (h : v.content? = some c) : v.kind = c.kind := by
  rcases content?_cases h with ⟨x, n, rfl, -, rfl⟩ | ⟨s, safe, latex, rfl, rfl⟩ | ⟨items, cs, rfl, -, rfl⟩ <;>
    rfl

theorem kinds_of_contents? {vs : List Value} {cs : List Content} (h : contents? vs = some cs) :
    vs.map Value.kind = cs.map Content.kind := by
  induction vs generalizing cs with
  | nil =>
      cases h
      rfl
  | cons v vs ih =>
      obtain ⟨c, rest, hc, hrest, rfl⟩ := contents?_cons_eq_some.1 h
      rw [List.map_cons, List.map_cons, kind_of_content? hc, ih hrest]

/-- Two values are made of the same. -/
def SameContent (v w : Value) : Prop := ∃ c, v.content? = some c ∧ w.content? = some c

/-- The values of two lists are made of the same. -/
def SameContents (vs ws : List Value) : Prop := ∃ cs, contents? vs = some cs ∧ contents? ws = some cs

theorem content?_eq_integer {v : Value} {n : Int} (h : v.content? = some (.integer n)) :
    ∃ x, v = .real x ∧ Real.int? x = some n := by
  rcases content?_cases h with ⟨x, m, hv, hx, heq⟩ | ⟨_, _, _, -, heq⟩ | ⟨_, _, -, -, heq⟩ <;> cases heq
  exact ⟨x, hv, hx⟩

theorem content?_eq_text {v : Value} {s : String} (h : v.content? = some (.text s)) :
    ∃ safe latex, v = .text s safe latex := by
  rcases content?_cases h with ⟨_, _, -, -, heq⟩ | ⟨t, safe, latex, hv, heq⟩ | ⟨_, _, -, -, heq⟩ <;>
    cases heq
  exact ⟨safe, latex, hv⟩

theorem content?_eq_list {v : Value} {cs : List Content} (h : v.content? = some (.list cs)) :
    ∃ items, v = .list items ∧ contents? items = some cs := by
  rcases content?_cases h with ⟨_, _, -, -, heq⟩ | ⟨_, _, _, -, heq⟩ | ⟨items, ds, hv, hitems, heq⟩ <;>
    cases heq
  exact ⟨items, hv, hitems⟩

mutual

/-- Values that are made of the same are equal. -/
theorem eqv_of_content? : (c : Content) → ∀ v w : Value, v.content? = some c → w.content? = some c →
    v.eqv w = true
  | .integer n, v, w, hv, hw => by
      obtain ⟨x, rfl, hx⟩ := content?_eq_integer hv
      obtain ⟨y, rfl, hy⟩ := content?_eq_integer hw
      have hzero : ((0.0 : Float) == 0.0) = true := by decide +kernel
      exact Bool.and_eq_true_iff.2 ⟨Real.beq_of_int? hx hy, hzero⟩
  | .text s, v, w, hv, hw => by
      obtain ⟨_, _, rfl⟩ := content?_eq_text hv
      obtain ⟨_, _, rfl⟩ := content?_eq_text hw
      exact beq_self_eq_true s
  | .list cs, v, w, hv, hw => by
      obtain ⟨vs, rfl, hvs⟩ := content?_eq_list hv
      obtain ⟨ws, rfl, hws⟩ := content?_eq_list hw
      exact eqvAll_of_contents? cs vs ws hvs hws

theorem eqvAll_of_contents? : (cs : List Content) → ∀ vs ws, contents? vs = some cs →
    contents? ws = some cs → eqvAll vs ws = true
  | [], vs, ws, hvs, hws => by
      rw [eq_nil_of_contents? hvs, eq_nil_of_contents? hws]
      rfl
  | c :: cs, vs, ws, hvs, hws => by
      obtain ⟨v, vs, rfl, hv, hvs⟩ := exists_of_contents?_cons hvs
      obtain ⟨w, ws, rfl, hw, hws⟩ := exists_of_contents?_cons hws
      exact Bool.and_eq_true_iff.2 ⟨eqv_of_content? c v w hv hw, eqvAll_of_contents? cs vs ws hvs hws⟩

end

end Value

/-! ### Writing -/

/-- An integer is written alike whatever the sign of zero. -/
theorem Number.source_eq_of_int? {x y : Float} {n : Int} (hx : Real.int? x = some n)
    (hy : Real.int? y = some n) : Number.source {} (.real x) = Number.source {} (.real y) := by
  have hzero : Number.source {} (.real 0) = .ok "0" := rfl
  have hminus : Number.source {} (.real (-0)) = .ok "0" := rfl
  rcases (Float.beq_iff_ne_nan_and_eq.1 (Real.beq_of_int? hx hy)).2.2 with rfl | ⟨rfl, rfl⟩ | ⟨rfl, rfl⟩
  · rfl
  · rw [hzero, hminus]
  · rw [hzero, hminus]

namespace Value

mutual

/-- Values that are made of the same are written alike. -/
theorem source_eq_of_content? : (c : Content) → ∀ v w : Value, v.content? = some c →
    w.content? = some c → v.source = w.source
  | .integer n, v, w, hv, hw => by
      obtain ⟨x, rfl, hx⟩ := content?_eq_integer hv
      obtain ⟨y, rfl, hy⟩ := content?_eq_integer hw
      exact Number.source_eq_of_int? hx hy
  | .text s, v, w, hv, hw => by
      obtain ⟨_, _, rfl⟩ := content?_eq_text hv
      obtain ⟨_, _, rfl⟩ := content?_eq_text hw
      rfl
  | .list cs, v, w, hv, hw => by
      obtain ⟨vs, rfl, hvs⟩ := content?_eq_list hv
      obtain ⟨ws, rfl, hws⟩ := content?_eq_list hw
      unfold source sourceWith
      rw [sourceOf_eq_of_contents? cs vs ws hvs hws]

theorem sourceOf_eq_of_contents? : (cs : List Content) → ∀ vs ws, contents? vs = some cs →
    contents? ws = some cs → sourceOf {} vs = sourceOf {} ws
  | [], vs, ws, hvs, hws => by
      rw [eq_nil_of_contents? hvs, eq_nil_of_contents? hws]
  | c :: cs, vs, ws, hvs, hws => by
      obtain ⟨v, vs, rfl, hv, hvs⟩ := exists_of_contents?_cons hvs
      obtain ⟨w, ws, rfl, hw, hws⟩ := exists_of_contents?_cons hws
      have hsource : sourceWith {} v = sourceWith {} w := source_eq_of_content? c v w hv hw
      rw [sourceOf, sourceOf, hsource, sourceOf_eq_of_contents? cs vs ws hvs hws]

end

theorem SameContent.asText_eq {v w : Value} (h : SameContent v w) :
    Primitive.asText v = Primitive.asText w := by
  obtain ⟨c, hv, hw⟩ := h
  have hsource := source_eq_of_content? c v w hv hw
  rcases content?_cases hv with ⟨x, n, rfl, -, rfl⟩ | ⟨s, safe, latex, rfl, rfl⟩ | ⟨vs, cs, rfl, -, rfl⟩
  · obtain ⟨y, rfl, -⟩ := content?_eq_integer hw
    exact hsource
  · obtain ⟨_, _, rfl⟩ := content?_eq_text hw
    rfl
  · obtain ⟨ws, rfl, -⟩ := content?_eq_list hw
    exact hsource

end Value

end MathExpr
