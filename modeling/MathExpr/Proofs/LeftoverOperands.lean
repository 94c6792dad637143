import MathExpr.Proofs.Matching
import MathExpr.Proofs.Outcome
import Mathlib.Data.List.FinRange

/-!
# Operands that are left over

A chain of operand patterns whose last one is `??;rest` (`Pattern.withRest`) takes one operand for each of
the others and captures those that are left: the operands that the patterns match stand at different
places of the chain in the tree, and `rest` is the chain of all others, in the order in which they stand
there (`Pattern.exists_places_of_find`).
-/

namespace MathExpr.Pattern

/-! ### Places -/

section Places

variable {α : Type} {get : α → Tree} {items places others : List α} {ms : List Matcher}
  {left : List Tree} {found found' : Captures}

/-- What is taken stands at different places, and what is left keeps its order. -/
theorem Takes.exists_places (h : Takes ms (items.map get) found left found') :
    ∃ places others : List α, (places ++ others).Perm items ∧ others.Sublist items ∧
      pairwise ms (places.map get) found = some found' ∧ left = others.map get := by
  generalize hts : items.map get = ts at h
  induction h generalizing items with
  | nil => exact ⟨[], items, .refl _, .refl _, rfl, hts.symm⟩
  | cons hfirst _ ih =>
      obtain ⟨before, after', rfl, rfl, hafter⟩ := List.map_eq_append_iff.1 hts
      obtain ⟨i, after, rfl, rfl, rfl⟩ := List.map_eq_cons_iff.1 hafter
      obtain ⟨places, others, hperm, hsublist, hpairwise, rfl⟩ := ih (List.map_append)
      refine ⟨i :: places, others, (hperm.cons i).trans List.perm_middle.symm, ?_, ?_, rfl⟩
      · exact hsublist.trans ((List.sublist_cons_self i after).append_left before)
      · rw [List.map_cons, pairwise, hfirst]
        exact hpairwise

/-- What is left are all places that are not taken. -/
theorem eq_filter_of_perm_append [DecidableEq α] (hitems : items.Nodup)
    (hperm : (places ++ others).Perm items) (hsublist : others.Sublist items) :
    others = items.filter (· ∉ places) := by
  have hdisjoint := List.disjoint_of_nodup_append (hperm.nodup_iff.2 hitems)
  have hothers : others.filter (· ∉ places) = others :=
    List.filter_eq_self.2 fun i hi => decide_eq_true fun hplace => hdisjoint hplace hi
  have hplaces : places.filter (· ∉ places) = [] :=
    List.filter_eq_nil_iff.2 fun i hi => by simpa using hi
  -- A sublist of the same length is the whole list.
  have hsub := hsublist.filter (· ∉ places)
  have hlength := (hperm.filter (· ∉ places)).length_eq
  rw [List.filter_append, hplaces, List.nil_append] at hlength
  rw [← hsub.eq_of_length hlength, hothers]

end Places

/-! ### Chains of patterns -/

/-- The chain of a binary operator with the given operand patterns, from the left to the right. -/
def chain (symbol : String) (p : Pattern) (ps : List Pattern) : Pattern := ps.foldl (binary symbol) p

theorem chain_concat (symbol : String) (p : Pattern) (ps : List Pattern) (q : Pattern) :
    chain symbol p (ps ++ [q]) = binary symbol (chain symbol p ps) q := by
  rw [chain, List.foldl_append]
  rfl

/-- Whether a pattern is for applications of an operator. -/
def isApplicationOf (symbol : String) : Pattern → Bool
  | node (.op o) _ => o.symbol == symbol
  | _ => false

theorem operandsOf_of_isApplicationOf {symbol : String} {p : Pattern}
    (h : p.isApplicationOf symbol = false) : p.operandsOf symbol = [p] := by
  refine operandsOf_of_ne ?_
  rintro o q r rfl hsymbol
  simp [isApplicationOf, hsymbol] at h

theorem operandsOf_chain (symbol : String) (p : Pattern) (ps : List Pattern) :
    (chain symbol p ps).operandsOf symbol = (p :: ps).flatMap (operandsOf symbol) := by
  induction ps generalizing p with
  | nil => simp [chain]
  | cons q ps ih =>
      rw [show chain symbol p (q :: ps) = chain symbol (binary symbol p q) ps from rfl, ih]
      simp [binary, operandsOf]

theorem ofTree_binary {symbol : String} (hsymbol : symbol ≠ ";") {t u : Tree} {p q : Pattern}
    (hp : ofTree t = .ok p) (hq : ofTree u = .ok q) :
    ofTree (Tree.binary symbol t u) = .ok (binary symbol p q) := by
  have hargs : ofTrees [t, u] = .ok [p, q] := by
    rw [ofTrees, hp, ofTrees, hq]
    rfl
  unfold Tree.binary ofTree
  split
  · rename_i heq
    cases heq
  · rename_i heq
    cases heq
    exact absurd rfl hsymbol
  · rename_i heq
    cases heq
  · rename_i heq
    cases heq
    rw [hargs]
    rfl

/-- A chain of operands in a tree stands for the chain of the patterns of its operands. -/
theorem ofTree_chain {symbol : String} (hsymbol : symbol ≠ ";") {t : Tree} {ts : List Tree} {p : Pattern}
    {ps : List Pattern} (ht : ofTree t = .ok p) (hts : ofTrees ts = .ok ps) :
    ofTree (ts.foldl (Tree.binary symbol) t) = .ok (chain symbol p ps) := by
  induction ts generalizing t p ps with
  | nil =>
      cases hts
      exact ht
  | cons u ts ih =>
      obtain ⟨q, hq, hts⟩ := exists_of_bind_eq_ok hts
      obtain ⟨qs, hqs, hts⟩ := exists_of_bind_eq_ok hts
      cases hts
      exact ih (p := binary symbol p q) (ofTree_binary hsymbol ht hq) hqs

/-! ### The rest of a chain -/

theorem rest?_append (qs : List Pattern) (key : String) :
    rest? (qs ++ [capture anyMore key]) = some (capture anyMore key) := by
  simp [rest?, takesRest, Option.filter]

theorem single_append (qs : List Pattern) (key : String) : single (qs ++ [capture anyMore key]) = qs := by
  rw [single, rest?_append]
  simp

/-- The operands of a chain at all places but some, in order. -/
def operandsExcept (symbol : String) (t : Tree) (places : List (Fin (t.operandsOf symbol).length)) :
    List Tree :=
  ((List.finRange _).filter (· ∉ places)).map (t.operandsOf symbol).get

/-- What is found where the operand patterns of a chain match operands at some places in turn, and `rest` is
the chain of all other operands. -/
structure TakesAt (symbol : String) (ps : List Pattern) (rest : String) (t : Tree) (found : Captures)
    (places : List (Fin (t.operandsOf symbol).length)) : Prop where
  length : places.length = ps.length
  distinct : places.Nodup
  matches_rest : ∃ found' remaining,
    pairwise (ps.map (matcher true)) (places.map (t.operandsOf symbol).get) .empty = some found' ∧
      Tree.chain? symbol (operandsExcept symbol t places) = some remaining ∧
      found = found'.insert rest remaining

variable {symbol rest : String} {p : Pattern} {ps : List Pattern} {t : Tree}

/-- The chain of some operand patterns and one for the rest, with the operands in any order. -/
def withRest (symbol : String) (p : Pattern) (ps : List Pattern) (rest : String) : Pattern :=
  commuting (chain symbol p (ps ++ [capture anyMore rest]))

theorem ofTrees_concat {t : Tree} {ts : List Tree} {p : Pattern} {ps : List Pattern}
    (hts : ofTrees ts = .ok ps) (ht : ofTree t = .ok p) : ofTrees (ts ++ [t]) = .ok (ps ++ [p]) := by
  induction ts generalizing ps with
  | nil =>
      cases hts
      rw [List.nil_append, ofTrees, ht, ofTrees]
      rfl
  | cons u ts ih =>
      obtain ⟨q, hq, hts⟩ := exists_of_bind_eq_ok hts
      obtain ⟨qs, hqs, hts⟩ := exists_of_bind_eq_ok hts
      cases hts
      rw [List.cons_append, ofTrees, hq, ih hqs]
      rfl

/-- The pattern that is written `m_commute(p + … + ??;rest)`. -/
theorem ofTree_withRest (hsymbol : symbol ≠ ";") {ts : List Tree} (ht : ofTree t = .ok p)
    (hts : ofTrees ts = .ok ps) (s : String) (hints : List String) :
    ofTree (.node (.call "m_commute")
      [(ts ++ [Tree.binary ";" (.leaf (.name "??" [])) (.leaf (.name s hints))]).foldl (Tree.binary symbol) t]) =
      .ok (withRest symbol p ps (Text.lower s)) := by
  have hrest : ofTree (.binary ";" (.leaf (.name "??" [])) (.leaf (.name s hints))) =
      .ok (capture anyMore (Text.lower s)) := rfl
  have hchain := ofTree_chain hsymbol ht (ofTrees_concat hts hrest)
  rw [ofTree, ofTrees, hchain]
  rfl

theorem operandsOf_withRest (rest : String) (hps : ∀ q ∈ p :: ps, q.isApplicationOf symbol = false) :
    (chain symbol p (ps ++ [capture anyMore rest])).operandsOf symbol =
      (p :: ps) ++ [capture anyMore rest] := by
  have hsingle : (p :: ps).flatMap (operandsOf symbol) = p :: ps := by
    rw [List.flatMap_congr fun q hq => operandsOf_of_isApplicationOf (hps q hq)]
    simp
  rw [operandsOf_chain, ← List.cons_append, List.flatMap_append, hsingle]
  rfl

/-- **No operand is lost or taken twice.** Where a chain of operand patterns and `??;rest` matches a tree, the
operand patterns match operands at different places in turn, and `rest` is the chain of all others. -/
theorem exists_places_of_find (hsymbol : Operator.isCommutative symbol = true)
    (hps : ∀ q ∈ p :: ps, q.isApplicationOf symbol = false) (hrest : rest ∉ captureNamesOf (p :: ps))
    {commute : Bool} {found : Captures} (h : (withRest symbol p ps rest).find t commute = some found) :
    ∃ places, TakesAt symbol (p :: ps) rest t found places := by
  have hany : anyOrder? true (.op ⟨symbol, .between⟩) [chain symbol p ps, capture anyMore rest] = some symbol := by
    simp [anyOrder?, commutative?, hsymbol]
  have hoperands := operandsOf_withRest rest hps
  change matcher true (chain symbol p (ps ++ [capture anyMore rest])) t .empty = some found at h
  rw [chain_concat, binary] at h hoperands
  cases t with
  | leaf v => cases h
  | node k ts =>
      rw [matcher_node_anyOrder hany, ← operandsOf_node hany, hoperands, anyOrder_eq_assign, rest?_append,
        single_append] at h
      split_ifs at h
      obtain ⟨left, found', htakes, hfinish⟩ := exists_takes_of_assign h
      obtain ⟨remaining, hremaining, hbind⟩ := Option.bind_eq_some_iff.1 hfinish
      -- Operands may be equal, but their places differ.
      rw [← List.map_get_finRange ((Tree.node k ts).operandsOf symbol)] at htakes
      obtain ⟨places, others, hperm, hsublist, hpairwise, rfl⟩ := htakes.exists_places
      have hnodup := List.nodup_finRange ((Tree.node k ts).operandsOf symbol).length
      have hothers := eq_filter_of_perm_append hnodup hperm hsublist
      refine ⟨places, ?_, ?_, found', remaining, hpairwise, ?_, ?_⟩
      · simpa using (length_eq_of_pairwise hpairwise).symm
      · exact (List.nodup_append.1 (hperm.nodup_iff.2 hnodup)).1
      · rw [operandsExcept, ← hothers]
        exact hremaining
      · have hfresh : found'.find? rest = none := by
          rw [find?_of_pairwise hrest hpairwise]
          rfl
        change found'.bind rest remaining = some found at hbind
        rw [Captures.bind_of_find?_eq_none hfresh] at hbind
        exact (Option.some.inj hbind).symm

/-- `m_commute(x + ?;a + ??;rest)` and `y + (x + z)` -/
theorem exists_places_of_find_sum :
    let x : Value := .name "x" []
    let t : Tree := .binary "+" (.leaf (.name "y" [])) (.binary "+" (.leaf x) (.leaf (.name "z" [])))
    let ps : List Pattern := [capture anything "a"]
    Operator.isCommutative "+" = true ∧ (∀ q ∈ literal x :: ps, q.isApplicationOf "+" = false) ∧
      "rest" ∉ captureNamesOf (literal x :: ps) ∧
      ∃ found, (withRest "+" (literal x) ps "rest").find t false = some found ∧
        ∃ places, TakesAt "+" (literal x :: ps) "rest" t found places := by
  intro x t ps
  have hsymbol : Operator.isCommutative "+" = true := by decide
  have hps : ∀ q ∈ literal x :: ps, q.isApplicationOf "+" = false := by
    simp [ps, isApplicationOf]
  have hrest : "rest" ∉ captureNamesOf (literal x :: ps) := by decide
  have hfind : ((withRest "+" (literal x) ps "rest").find t false).isSome = true := by decide +kernel
  obtain ⟨found, hfound⟩ := Option.isSome_iff_exists.1 hfind
  exact ⟨hsymbol, hps, hrest, found, hfound, exists_places_of_find hsymbol hps hrest hfound⟩

end MathExpr.Pattern
