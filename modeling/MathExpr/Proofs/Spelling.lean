import MathExpr.Tree.OfTokens

/-!
# Trees and the tokens that spell them

The infix expressions, as a grammar. A tree is *spelled* by a list of tokens
(`Tree.Spells`) if the tokens are the tree written in infix form, with brackets anywhere
around a value: an operator stands before, between or after its operands, a function
before its bracketed arguments, a subscript after its value. Nothing is said about
precedence, so that a list of tokens may spell several trees.

A tree is *read in order* as a list of tokens (`Tree.Reads`) if the tokens are what is
left of such a list without brackets and commas (`Tree.Spells.reads`).
-/

namespace MathExpr

/-- Whether a token is left out where a tree is read in order: brackets and commas are. -/
def Token.isContent : Token → Bool
  | .mark _ => false
  | _ => true

namespace Tree

/-! ### Reading in order -/

mutual

/-- The tokens of a tree in order, without brackets and commas: an operator before,
between or after its operands, the name of a function before its arguments, a subscript
after its value. A function may be read under any of its names. -/
inductive Reads : Tree → List Token → Prop
  | number (n : Number) : Reads (.leaf (.number n)) [.number n]
  | text (s : String) : Reads (.leaf (.plainText s)) [.text s]
  | boolean (b : Bool) : Reads (.leaf (.boolean b)) [.boolean b]
  | name (s : String) (hints : List String) : Reads (.leaf (.name s hints)) [.name s hints]
  | before {o : Operator} {t : Tree} {ts : List Token} (ho : o.place = .before)
      (ht : Reads t ts) : Reads (.node (.op o) [t]) (.op o :: ts)
  | between {o : Operator} {l r : Tree} {ts us : List Token} (ho : o.place = .between)
      (hl : Reads l ts) (hr : Reads r us) : Reads (.node (.op o) [l, r]) (ts ++ .op o :: us)
  | after {o : Operator} {t : Tree} {ts : List Token} (ho : o.place = .after)
      (ht : Reads t ts) : Reads (.node (.op o) [t]) (ts ++ [.op o])
  | call (name : String) {args : List Tree} {ts : List Token} (hargs : ReadsAll args ts) :
      Reads (.node (.call (Operator.canonicalFunction name (Text.lower name))) args)
        (.function name :: ts)
  | list {args : List Tree} {ts : List Token} (hargs : ReadsAll args ts) :
      Reads (.node .list args) ts
  | subscript {t i : Tree} {ts us : List Token} (ht : Reads t ts) (hi : Reads i us) :
      Reads (.node (.call "listval") [t, i]) (ts ++ us)

/-- The tokens of the trees of a list, one tree after the other. -/
inductive ReadsAll : List Tree → List Token → Prop
  | nil : ReadsAll [] []
  | snoc {args : List Tree} {t : Tree} {us ts : List Token} (hargs : ReadsAll args us)
      (ht : Reads t ts) : ReadsAll (args ++ [t]) (us ++ ts)

end

/-! ### Infix expressions -/

mutual

/-- The tokens are an infix expression of the tree. -/
inductive Spells : Tree → List Token → Prop
  | number (n : Number) : Spells (.leaf (.number n)) [.number n]
  | text (s : String) : Spells (.leaf (.plainText s)) [.text s]
  | boolean (b : Bool) : Spells (.leaf (.boolean b)) [.boolean b]
  | name (s : String) (hints : List String) : Spells (.leaf (.name s hints)) [.name s hints]
  | group {t : Tree} {ts : List Token} (ht : Spells t ts) :
      Spells t (.mark .openRound :: ts ++ [.mark .closeRound])
  | before {o : Operator} {t : Tree} {ts : List Token} (ho : o.place = .before)
      (ht : Spells t ts) : Spells (.node (.op o) [t]) (.op o :: ts)
  | between {o : Operator} {l r : Tree} {ts us : List Token} (ho : o.place = .between)
      (hl : Spells l ts) (hr : Spells r us) : Spells (.node (.op o) [l, r]) (ts ++ .op o :: us)
  | after {o : Operator} {t : Tree} {ts : List Token} (ho : o.place = .after)
      (ht : Spells t ts) : Spells (.node (.op o) [t]) (ts ++ [.op o])
  | call (name : String) {args : List Tree} {ts : List Token} (hargs : SpellsAll args ts) :
      Spells (.node (.call (Operator.canonicalFunction name (Text.lower name))) args)
        (.function name :: .mark .openRound :: ts ++ [.mark .closeRound])
  | list {args : List Tree} {ts : List Token} (hargs : SpellsAll args ts) :
      Spells (.node .list args) (.mark .openSquare :: ts ++ [.mark .closeSquare])
  | subscript {t i : Tree} {ts us : List Token} (ht : Spells t ts) (hi : Spells i us) :
      Spells (.node (.call "listval") [t, i])
        (ts ++ .mark .openSquare :: us ++ [.mark .closeSquare])

/-- The tokens are infix expressions of the trees, with commas between them. -/
inductive SpellsAll : List Tree → List Token → Prop
  | nil : SpellsAll [] []
  | snoc {args : List Tree} {t : Tree} {us ts : List Token} (hargs : SpellsEach args us)
      (ht : Spells t ts) : SpellsAll (args ++ [t]) (us ++ ts)

/-- The tokens are infix expressions of the trees, with a comma after each of them. -/
inductive SpellsEach : List Tree → List Token → Prop
  | none : SpellsEach [] []
  | more {args : List Tree} {t : Tree} {us ts : List Token} (hargs : SpellsEach args us)
      (ht : Spells t ts) : SpellsEach (args ++ [t]) (us ++ ts ++ [.mark .comma])

end

theorem SpellsEach.eq_nil {ts : List Token} (h : SpellsEach [] ts) : ts = [] := by
  generalize hargs : ([] : List Tree) = args at h
  cases h with
  | none => rfl
  | more => exact absurd hargs.symm (List.append_ne_nil_of_right_ne_nil _ (List.cons_ne_nil _ _))

section

attribute [local simp] List.filter_append List.filter_cons Token.isContent

/-- A tree that is spelled by some tokens is read in order as these without brackets and
commas. -/
theorem Spells.reads {t : Tree} {ts : List Token} (h : t.Spells ts) :
    t.Reads (ts.filter Token.isContent) := by
  induction h using Spells.rec
    (motive_2 := fun args ts _ => ReadsAll args (ts.filter Token.isContent))
    (motive_3 := fun args ts _ => ReadsAll args (ts.filter Token.isContent)) with
  | number n => exact .number n
  | text s => exact .text s
  | boolean b => exact .boolean b
  | name s hints => exact .name s hints
  | group _ ih => simpa using ih
  | before ho _ ih => simpa using Reads.before ho ih
  | between ho _ _ ihl ihr => simpa using Reads.between ho ihl ihr
  | after ho _ ih => simpa using Reads.after ho ih
  | call name _ ih => simpa using Reads.call name ih
  | list _ ih => simpa using Reads.list ih
  | subscript _ _ iht ihi => simpa using Reads.subscript iht ihi
  | nil | none => exact .nil
  | snoc _ _ ihargs iht | more _ _ ihargs iht => simpa using ReadsAll.snoc ihargs iht

end

/-! ### Functions that are no variables -/

/-- Where no function is a variable, no products are read. -/
theorem withProducts_eq_self {isVariable : String → Bool} {ts : List Token}
    (h : ∀ name, .function name ∈ ts → isVariable (Text.lower name) = false) :
    withProducts isVariable ts = ts := by
  unfold withProducts
  induction ts with
  | nil => rfl
  | cons t ts ih =>
      rw [List.flatMap_cons, ih fun name hname => h name (List.mem_cons_of_mem t hname)]
      cases t with
      | function name => simp [h name List.mem_cons_self]
      | _ => rfl

/-- Where no variables are known, no products with them are read. -/
theorem withProducts_of_no_variable (ts : List Token) : withProducts (fun _ => false) ts = ts :=
  withProducts_eq_self fun _ _ => rfl

end Tree

end MathExpr
