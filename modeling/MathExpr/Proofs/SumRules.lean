import MathExpr.Proofs.CalculatedParts

/-!
# Rules at sums of lists and texts

The basic rules are made for numbers. Of what they do to a sum `x + (y + z)` that is a list
or a text, if the kinds of the operands allow to regroup it, nothing is left but to
regroup it (`Rule.regroups_of_transform`): a rule either asks for another second operand, or
it has a condition that only a number meets, or it regroups sums.
-/

namespace MathExpr

open MathExpr.Action (runFrom)

variable {s : Scope} {found : Captures}

/-! ### Conditions that only numbers meet -/

namespace Library

/-- Only numbers are compared with numbers. -/
theorem body?_less {k : String} (hk : k ∈ ["string", "list"]) : body? "<" [k, "number"] = none := by
  have hall : ∀ k ∈ ["string", "list"], (body? "<" [k, "number"]).isNone = true := by
    unfold body?
    simp only [filter_lower_name]
    decide +kernel
  exact Option.isNone_iff_eq_none.1 (hall k hk)

end Library

namespace Evaluate

variable {deeper : Evaluator}

/-- A list or a text is not less than a number. -/
theorem returns_less (hs : s.signatures "<" = Library.scope.signatures "<") {t : Tree} {a : Number}
    {k : String} (hk : k ∈ ["string", "list"]) (ht : (tree deeper s false t).Returns fun v => v.kind = k)
    {o : Operator} (ho : o.symbol = "<") :
    (tree deeper s false (.node (.op o) [t, .leaf (.number a)])).Returns fun _ => False := by
  rw [tree_op (by rw [ho]; decide +kernel), ho]
  unfold trees
  simp only [bind_assoc, pure_bind]
  refine Action.returns_bind ht fun v hv => ?_
  have hbody : Library.body? "<" ([v, .number a].map Value.kind) = none := by
    rw [List.map_cons, hv]
    exact Library.body?_less hk
  exact returns_dispatch_of_none hs hbody

/-- What is neither a name nor a complex number is not taken for a complex number without its value. -/
theorem eq_none_or_of_kindOfUnbound {t : Tree} (hname : t.name? = none) (hkind : t.kind ≠ "complex")
    {o : Option Bool} (h : Construct.kindOfUnbound s "complex" t = .ok o) : o = none ∨ o = some false := by
  unfold Construct.kindOfUnbound at h
  rw [hname] at h
  obtain ⟨free, -, h⟩ := exists_of_bind_eq_ok h
  cases h
  split
  · exact .inl rfl
  · exact .inr (congrArg some (beq_eq_false_iff_ne.2 hkind))

theorem isOfKind_complex {v : Value} (h : v.kind ≠ "number") : Construct.isOfKind "complex" v = false := by
  cases v with
  | number a => exact absurd rfl h
  | _ => rfl

/-- The question for the kind of a tree has an answer by the kind of its value, or by that of the tree. -/
theorem returns_isa (hs : s.signatures "isa" = Library.scope.signatures "isa") {t : Tree} {k : String}
    (ht : (tree deeper s false t).Returns fun v => v.kind = k) (hk : k ≠ "number") (hname : t.name? = none)
    (hkind : t.kind ≠ "complex") {o : Operator} (ho : o.symbol = "isa") (safe latex : Bool) :
    (tree deeper s false (.node (.op o) [t, .leaf (.text "complex" safe latex)])).Returns fun v =>
      v = .boolean false := by
  have htext : text deeper s "complex" safe latex = pure (.text "complex" safe latex) := by
    have hslots : (!safe && "complex".toList.contains '\x7b') = false := by
      have hnone : "complex".toList.contains '\x7b' = false := by decide
      rw [hnone, Bool.and_false]
    have hbraces : Text.unescapeBraces "complex" = "complex" := by decide +kernel
    unfold text
    rw [hslots]
    simp only [Bool.false_eq_true, ↓reduceIte, pure_bind, hbraces]
  have hcall : (Head.op o).name? = some (Construct.name .isa) := congrArg some ho
  rw [Library.tree_construct deeper hs hcall]
  refine Action.returns_bind (P := fun v => v = .text "complex" safe latex) ?_ fun v hv => ?_
  · show (text deeper s "complex" safe latex).Returns _
    rw [htext]
    exact Action.returns_pure rfl
  · subst hv
    dsimp only
    refine Action.returns_bind (P := fun o => o = none ∨ o = some false) ?_ fun o ho => ?_
    · intro d o d' hrun
      exact eq_none_or_of_kindOfUnbound hname hkind (congrArg Prod.fst hrun)
    · rcases ho with rfl | rfl
      · refine Action.returns_bind ht fun v hv => Action.returns_pure ?_
        rw [isOfKind_complex (hv ▸ hk)]
      · exact Action.returns_pure rfl

end Evaluate

namespace Tree

theorem name?_of_kind? {t : Tree} {k : String} (h : t.kind? = some k) : t.name? = none := by
  cases t with
  | leaf v =>
      cases v with
      | name => cases h
      | _ => rfl
  | node h args => rfl

/-- A tree of literals is not taken for a complex number. -/
theorem kind_ne_complex {t : Tree} {k : String} (h : t.kind? = some k) : t.kind ≠ "complex" := by
  cases t with
  | leaf v =>
      cases v with
      | number => exact (by decide : "number" ≠ "complex")
      | text => exact (by decide : "string" ≠ "complex")
      | _ => cases h
  | node head args =>
      cases head with
      | op => exact (by decide : "op" ≠ "complex")
      | call => cases h
      | list => exact (by decide : "list" ≠ "complex")

/-- There is nothing to evaluate in a tree of literals. -/
theorem evalParts_of_ofLiterals {t : Tree} (ht : t.OfLiterals) : t.evalParts s = pure t := by
  have hparts : ∀ args : List Tree, (∀ t ∈ args, t.evalParts s = pure t) → evalPartsOf s args = pure args := by
    intro args hargs
    induction args with
    | nil => rfl
    | cons t ts ih =>
        rw [evalPartsOf, hargs t List.mem_cons_self, ih fun u hu => hargs u (List.mem_cons_of_mem t hu)]
        rfl
  induction ht with
  | integer _ => rfl
  | text _ _ _ => rfl
  | list _ ih =>
      show (do return Tree.node .list (← evalPartsOf s _)) = _
      rw [hparts _ ih]
      rfl
  | operation _ _ ih =>
      show (do return Tree.node (.op _) (← evalPartsOf s _)) = _
      rw [hparts _ ih]
      rfl

/-- Only sums are lists or texts. -/
theorem symbol_of_kind? {o : Operator} {args : List Tree} {k : String}
    (h : (Tree.node (.op o) args).kind? = some k) (hk : k ∈ ["string", "list"]) : o.symbol = "+" := by
  obtain ⟨ks, -, h⟩ := kind?_op.1 h
  rcases Library.operatorKind?_cases h with ⟨rfl, -⟩ | ⟨ho, -⟩
  · simp at hk
  · exact ho

/-- The second operand of a sum that may be regrouped is a text or a list. -/
theorem exists_kind?_of_groups {o : Operator} {y z : Tree} {j k l : String} (ho : o.symbol = "+")
    (hy : y.kind? = some k) (hz : z.kind? = some l) (hgroups : Value.groups j k l = true) :
    ∃ m ∈ ["string", "list"], (Tree.node (.op o) [y, z]).kind? = some m := by
  have hmixed := (Value.not_numbers_of_groups hgroups).2
  have hsum : ∃ p, Library.sum? k l = some p := by
    rcases Value.groups_cases hgroups with ⟨-, rfl⟩ | ⟨-, rfl⟩ | ⟨-, rfl, rfl⟩
    · by_cases hl : l = "list"
      · rw [hl]
        exact ⟨_, rfl⟩
      · exact ⟨_, Library.sum?_list hl⟩
    · exact ⟨_, rfl⟩
    · exact ⟨_, rfl⟩
  obtain ⟨p, hp⟩ := hsum
  refine ⟨_, ?_, kind?_sum ho hy hz hp⟩
  split_ifs <;> decide

end Tree

/-- A pattern matches a node with two arguments if it is one whose parts match these. -/
theorem Pattern.matcher_pair {h k : Head} {ps : List Pattern} {t u : Tree} {found found' : Captures}
    (hmatch : matcher false (.node h ps) (.node k [t, u]) found = some found') :
    headFits h k = true ∧ ∃ p q found₁, ps = [p, q] ∧ matcher false p t found = some found₁ ∧
      matcher false q u found₁ = some found' := by
  rw [matcher_node] at hmatch
  split_ifs at hmatch with hfits
  match ps, hmatch with
  | [], hmatch => cases hmatch
  | [p], hmatch =>
      obtain ⟨found₁, -, hmatch⟩ := Option.bind_eq_some_iff.1 hmatch
      cases hmatch
  | [p, q], hmatch =>
      obtain ⟨found₁, hp, hmatch⟩ := Option.bind_eq_some_iff.1 hmatch
      obtain ⟨found₂, hq, hmatch⟩ := Option.bind_eq_some_iff.1 hmatch
      cases hmatch
      exact ⟨hfits, p, q, found₁, rfl, hp, hq⟩
  | p :: q :: _ :: _, hmatch =>
      obtain ⟨found₁, -, hmatch⟩ := Option.bind_eq_some_iff.1 hmatch
      obtain ⟨found₂, -, hmatch⟩ := Option.bind_eq_some_iff.1 hmatch
      cases hmatch

theorem Pattern.eq_insert_of_matcher {key : String} {t : Tree} {found found' : Captures}
    (h : matcher false (.capture .anything key) t found = some found') : found' = found.insert key t :=
  Captures.eq_insert_of_bind h

theorem Pattern.lower_eq_of_headFits {o o' : Operator} (h : headFits (.op o) (.op o') = true) :
    Text.lower o.symbol = Text.lower o'.symbol :=
  Option.some.inj (beq_iff_eq.1 (Bool.and_eq_true_iff.1 h).2)

/-! ### Rules -/

namespace Rule

/-- Whether a condition asks for a number under a name: for one that is less than another, or for a complex
number. -/
def asksForNumber (key : String) : Option Tree → Bool
  | some (.node (.op o) [.leaf (.name n _), .leaf (.number _)]) => o.symbol == "<" && Text.lower n == key
  | some (.node (.op o) [.leaf (.name n _), .leaf (.text kind _ _)]) =>
    o.symbol == "isa" && Text.lower n == key && kind == "complex"
  | _ => false

/-- Whether a rule makes `(x + y) + z` of `x + (y + z)`. -/
def isRegrouping (r : Rule) : Bool :=
  match r.pattern, r.result with
  | .node (.op a) [.capture .anything i, .node (.op b) [.capture .anything j, .capture .anything k]],
    .node (.op c) [.node (.op d) [.leaf (.name x _), .leaf (.name y _)], .leaf (.name z _)] =>
    [a, b, c, d].all (·.symbol == "+") && decide [i, j, k].Nodup &&
      [x, y, z].map Text.lower == [i, j, k]
  | _, _ => false

/-- Whether a rule passes over sums whose second operand is a sum that is no number: it asks for another
operator, here or in the second operand, or for a number as the second operand. -/
def passesSums (r : Rule) : Bool :=
  match r.pattern with
  | .node (.op o) ps =>
    Text.lower o.symbol != "+" ||
      match ps with
      | [_, .node (.op p) _] => Text.lower p.symbol != "+"
      | [_, .capture .anything key] => r.conditions.any (asksForNumber key)
      | _ => false
  | _ => false

variable (hsignatures : s.signatures = Library.scope.signatures) (hnone : ∀ n, s.value? n = none)

theorem hasArithmetic_of_signatures (hsignatures : s.signatures = Library.scope.signatures) :
    s.HasArithmetic := by
  intro symbol _
  rw [hsignatures]

include hsignatures hnone

/-- A list or a text does not meet a condition that asks for a number. -/
theorem returns_of_asksForNumber {key : String} {c : Tree} (hc : asksForNumber key (some c) = true)
    {t : Tree} {k : String} (hfind : found.find? key = some t) (ht : t.kind? = some k)
    (hk : k ∈ ["string", "list"]) : (s.eval (c.fill found)).Returns fun v => v ≠ .boolean true := by
  have hvalue : (s.eval t).Returns fun v => v.kind = k :=
    Evaluate.returns_kind (hasArithmetic_of_signatures hsignatures) hnone t k ht
  unfold asksForNumber at hc
  split at hc
  · rename_i o n hints a heq
    cases heq
    obtain ⟨ho, hn⟩ := Bool.and_eq_true_iff.1 hc
    have hfill : (Tree.leaf (.name n hints)).fill found = t := by
      rw [Tree.fill, beq_iff_eq.1 hn, hfind]
      rfl
    have hless := Evaluate.returns_less (a := a) (congrFun hsignatures "<") hk hvalue (beq_iff_eq.1 ho)
    rw [← hfill] at hless
    exact fun d v d' hrun => (hless d v d' hrun).elim
  · rename_i o n hints kind safe latex heq
    cases heq
    obtain ⟨hc, hkind⟩ := Bool.and_eq_true_iff.1 hc
    obtain ⟨ho, hn⟩ := Bool.and_eq_true_iff.1 hc
    have hfill : (Tree.leaf (.name n hints)).fill found = t := by
      rw [Tree.fill, beq_iff_eq.1 hn, hfind]
      rfl
    have hisa := Evaluate.returns_isa (congrFun hsignatures "isa") hvalue (by rintro rfl; simp at hk)
      (Tree.name?_of_kind? ht) (Tree.kind_ne_complex ht) (beq_iff_eq.1 ho) safe latex
    rw [← hfill, ← beq_iff_eq.1 hkind] at hisa
    intro d v d' hrun
    rw [hisa d v d' hrun]
    simp
  · cases hc

omit hsignatures hnone in
/-- Conditions are not met if one of them is never true. -/
theorem returns_areMet {conditions : List (Option Tree)} {c : Tree} (hc : some c ∈ conditions)
    (hvalue : (s.eval (c.fill found)).Returns fun v => v ≠ .boolean true) :
    (areMet s found conditions).Returns fun met => met = false := by
  induction conditions with
  | nil => cases hc
  | cons first rest ih =>
      cases first with
      | none =>
          intro d met d' hrun
          cases hrun
      | some first =>
          unfold areMet
          rcases List.mem_cons.1 hc with heq | hc
          · cases heq
            refine Action.returns_bind (Action.returns_attempt hvalue) fun o ho => ?_
            split
            · rename_i v
              exact absurd rfl (ho _ rfl)
            · exact Action.returns_pure rfl
          · refine Action.returns_bind (Action.returns_true _) fun o _ => ?_
            split
            · exact ih hc
            · exact Action.returns_pure rfl

omit hsignatures hnone in
/-- A rule that regroups sums fills its captures in again. -/
theorem regroups_of_isRegrouping {r : Rule} (hr : r.isRegrouping = true) {v w : Tree} (hv : v.Regroups w)
    (hfind : r.pattern.find v false = some found) :
    ∃ u, (r.result.fill found).evalParts s = pure u ∧ v.Regroups u := by
  obtain ⟨serial, name, pattern, conditions, result⟩ := r
  unfold isRegrouping at hr
  split at hr
  · rename_i a i b j k c d x hx y hy z hz hpattern hresult
    cases hpattern
    cases hresult
    cases hv with
    | @intro o o' p p' t u v l m n ho ho' hp hp' ht hu hv hgroups =>
        obtain ⟨-, _, _, found₁, heq, hfirst, hrest⟩ := Pattern.matcher_pair hfind
        cases heq
        obtain ⟨-, _, _, found₂, heq, hsecond, hthird⟩ := Pattern.matcher_pair hrest
        cases heq
        have hfound : found = ((Table.empty.insert i t).insert j u).insert k v := by
          rw [Pattern.eq_insert_of_matcher hthird, Pattern.eq_insert_of_matcher hsecond,
            Pattern.eq_insert_of_matcher hfirst]
        obtain ⟨hr, hnames⟩ := Bool.and_eq_true_iff.1 hr
        obtain ⟨hsymbols, hdistinct⟩ := Bool.and_eq_true_iff.1 hr
        have hsymbol : ∀ q ∈ [a, b, c, d], q.symbol = "+" := fun q hq =>
          beq_iff_eq.1 (List.all_eq_true.1 hsymbols q hq)
        have hnames : [Text.lower x, Text.lower y, Text.lower z] = [i, j, k] := beq_iff_eq.1 hnames
        injection hnames with hi hnames
        injection hnames with hj hnames
        injection hnames with hk
        have hdistinct : i ≠ j ∧ i ≠ k ∧ j ≠ k := by
          simpa [and_assoc] using of_decide_eq_true hdistinct
        have hfill : (Tree.node (.op c) [.node (.op d) [.leaf (.name x hx), .leaf (.name y hy)],
            .leaf (.name z hz)]).fill found = .node (.op c) [.node (.op d) [t, u], v] := by
          simp only [Tree.fill, Tree.fillAll, hfound, Table.find?_insert, hi, hj, hk, hdistinct.1,
            hdistinct.2.1, hdistinct.2.2, if_true, if_false, Option.getD_some]
        have hregroups := Tree.Regroups.intro ho ho' (hsymbol c (by simp)) (hsymbol d (by simp)) ht hu hv hgroups
        refine ⟨_, ?_, hregroups⟩
        show Tree.evalParts s (Tree.fill found _) = _
        rw [hfill, Tree.evalParts_of_ofLiterals hregroups.ofLiterals]
  · cases hr

/-- The conditions of a rule that passes over sums are not met by a sum whose second operand is a list or a
text. -/
theorem returns_areMet_of_passesSums {r : Rule} (hr : r.passesSums = true) {o : Operator} {x y : Tree}
    {k : String} (ho : o.symbol = "+") (hy : y.kind? = some k) (hk : k ∈ ["string", "list"])
    (hfind : r.pattern.find (.node (.op o) [x, y]) false = some found) :
    (areMet s found r.conditions).Returns fun met => met = false := by
  have hlower : Text.lower "+" = "+" := by decide +kernel
  obtain ⟨serial, name, pattern, conditions, result⟩ := r
  unfold passesSums at hr
  split at hr
  · rename_i q ps hpattern
    cases hpattern
    obtain ⟨hfits, first, second, found₁, rfl, -, hsecond⟩ := Pattern.matcher_pair hfind
    rw [Pattern.lower_eq_of_headFits hfits, ho, hlower] at hr
    split at hr
    · rename_i a b c heq
      cases heq
      cases y with
      | leaf v => cases hsecond
      | node h args =>
          rw [Pattern.matcher_node] at hsecond
          split_ifs at hsecond with hfits
          cases h with
          | op o' =>
              rw [Pattern.lower_eq_of_headFits hfits, Tree.symbol_of_kind? hy hk, hlower] at hr
              simp at hr
          | call => cases hy
          | list => cases (Bool.and_eq_true_iff.1 hfits).1
    · rename_i a key heq
      cases heq
      rw [Bool.or_eq_true_iff, List.any_eq_true] at hr
      obtain hr | ⟨c, hc, hasks⟩ := hr
      · simp at hr
      · cases c with
        | none => cases hasks
        | some c =>
            refine returns_areMet hc (returns_of_asksForNumber hsignatures hnone hasks ?_ hy hk)
            rw [Pattern.eq_insert_of_matcher hsecond, Table.find?_insert, if_pos rfl]
    · simp at hr
  · cases hr

omit hsignatures hnone in
/-- A rule does nothing where its conditions are not met. -/
theorem returns_none_of_areMet {r : Rule} {v : Tree} (h : ∀ found, r.pattern.find v false = some found →
    (areMet s found r.conditions).Returns fun met => met = false) :
    (r.transform s v).Returns fun o => o = none := by
  unfold transform
  split
  · exact Action.returns_pure rfl
  · rename_i found hfind
    refine Action.returns_bind (h found hfind) fun met hmet => ?_
    rw [hmet]
    exact Action.returns_pure rfl

/-- A rule that passes over sums does nothing to a sum whose second operand is a list or a text. -/
theorem returns_none_of_passesSums {r : Rule} (hr : r.passesSums = true) {o : Operator} {x y : Tree}
    {k : String} (ho : o.symbol = "+") (hy : y.kind? = some k) (hk : k ∈ ["string", "list"]) :
    (r.transform s (.node (.op o) [x, y])).Returns fun o => o = none :=
  returns_none_of_areMet fun _ => returns_areMet_of_passesSums hsignatures hnone hr ho hy hk

/-- What a rule that regroups sums or passes over them makes of a sum of lists or texts that may be
regrouped is the regrouped sum. -/
theorem regroups_of_transform {r : Rule} (hr : (r.isRegrouping || r.passesSums) = true) {v w : Tree}
    (hv : v.Regroups w) :
    (r.transform s v).Returns fun o => ∀ u, o = some u → v.Regroups u := by
  rcases Bool.or_eq_true_iff.1 hr with hr | hr
  · unfold transform
    split
    · exact Action.returns_pure fun u hu => by cases hu
    · rename_i found hfind
      obtain ⟨u, hparts, hu⟩ := regroups_of_isRegrouping (s := s) hr hv hfind
      refine Action.returns_bind (Action.returns_true _) fun met _ => ?_
      cases met with
      | false => exact Action.returns_pure fun u hu => by cases hu
      | true =>
          have hevaluated : ((r.result.fill found).evalParts s).Returns fun u => v.Regroups u := by
            rw [hparts]
            exact Action.returns_pure hu
          refine Action.returns_bind (Action.returns_attempt hevaluated) fun o ho => ?_
          split
          · rename_i w
            refine Action.returns_pure fun u hu => ?_
            cases hu
            exact ho w rfl
          · exact Action.returns_pure fun u hu => by cases hu
  · cases hv with
    | intro ho ho' hp hp' hx hy hz hgroups =>
        obtain ⟨k, hk, hkind⟩ := Tree.exists_kind?_of_groups ho' hy hz hgroups
        intro d o d' hrun u hu
        rw [returns_none_of_passesSums hsignatures hnone hr ho hkind hk d o d' hrun] at hu
        cases hu

end Rule

end MathExpr
