import MathExpr.Pattern.Matching
import MathExpr.Proofs.Bindings
import Mathlib.Data.List.Basic
import Mathlib.Tactic.SplitIfs

/-!
# Matching in general

What holds of every pattern, with operands in order or in any order. The operand patterns of a
chain are found like the operands of a chain in a tree (`Pattern.operandsOf`), and they take
operands out of a list one after another, in all ways that there are (`Pattern.Takes`): the search
finds one of these if there is any (`Pattern.isSome_assign_iff`).

A match is made of single captures (`Pattern.rel_of_matcher`), so that it leaves names alone that
the pattern does not capture under (`Pattern.find?_of_matcher`).
-/

namespace MathExpr

theorem Captures.eq_insert_of_bind {key : String} {u : Tree} {found found' : Captures}
    (h : found.bind key u = some found') : found' = found.insert key u := by
  unfold bind at h
  split at h
  · split_ifs at h
    exact (Option.some.inj h).symm
  · exact (Option.some.inj h).symm

theorem Captures.bind_of_find?_eq_none {key : String} {u : Tree} {found : Captures}
    (h : found.find? key = none) : found.bind key u = some (found.insert key u) := by
  rw [bind, h]

/-! ### Operands -/

/-- A property of trees that their arguments have, too, and every chain of operands that have it. -/
structure Tree.IsInherited (Q : Tree → Prop) : Prop where
  args : ∀ {h : Head} {ts : List Tree}, Q (.node h ts) → ∀ t ∈ ts, Q t
  chain : ∀ {symbol : String} {ts : List Tree} {u : Tree}, (∀ t ∈ ts, Q t) →
    chain? symbol ts = some u → Q u

theorem Tree.operandsOf_ne_nil (symbol : String) (t : Tree) : t.operandsOf symbol ≠ [] := by
  fun_induction Tree.operandsOf symbol t with
  | case1 o a b _ ha _ => exact fun h => ha (List.append_eq_nil_iff.1 h).1
  | case2 | case3 => exact List.cons_ne_nil _ _

theorem Tree.IsInherited.operandsOf {Q : Tree → Prop} (hQ : IsInherited Q) (symbol : String) {t : Tree}
    (ht : Q t) : ∀ u ∈ t.operandsOf symbol, Q u := by
  fun_induction Tree.operandsOf symbol t with
  | case1 o a b _ ha hb =>
      intro u hu
      rcases List.mem_append.1 hu with hu | hu
      · exact ha (hQ.args ht a (by simp)) u hu
      · exact hb (hQ.args ht b (by simp)) u hu
  | case2 | case3 => exact List.forall_mem_singleton.2 ht

namespace Pattern

/-! ### Chains of operand patterns -/

/-- A binary operator applied to two patterns. -/
def binary (symbol : String) (p q : Pattern) : Pattern := node (.op ⟨symbol, .between⟩) [p, q]

/-- The operands of a chain of a binary operator in a pattern, from the left to the right. -/
def operandsOf (symbol : String) : Pattern → List Pattern
  | node (.op o) [p, q] =>
    if o.symbol = symbol then operandsOf symbol p ++ operandsOf symbol q else [node (.op o) [p, q]]
  | p => [p]

/-- What a pattern becomes as an operand that may stand anywhere. -/
def toOperand (p : Pattern) : Bool × Matcher := (p.takesRest, matcher true p)

theorem operandsOf_of_ne {symbol : String} {p : Pattern}
    (h : ∀ o q r, p = node (.op o) [q, r] → o.symbol ≠ symbol) : p.operandsOf symbol = [p] := by
  unfold operandsOf
  split
  · rename_i o q r
    rw [if_neg (h o q r rfl)]
  · rfl

theorem operands_cons (symbol : String) (p : Pattern) (ps : List Pattern) :
    operands symbol (p :: ps) = operands symbol [p] ++ operands symbol ps := by
  rw [operands.eq_def symbol (p :: ps), operands.eq_def symbol [p]]
  simp only [operands, List.append_nil]

theorem operands_singleton (symbol : String) (p : Pattern) :
    operands symbol [p] = (p.operandsOf symbol).map toOperand := by
  fun_induction operandsOf symbol p with
  | case1 o p q hsymbol hp hq =>
      rw [List.map_append, ← hp, ← hq, ← operands_cons]
      simp [operands, hsymbol]
  | case2 o p q hsymbol => simp [operands, hsymbol, toOperand, takesRest]
  | case3 p hp =>
      cases p with
      | node h qs =>
          cases h with
          | op o =>
              have hlen : qs.length ≠ 2 := by
                intro hlen
                obtain ⟨q, r, rfl⟩ := List.length_eq_two.1 hlen
                exact hp o q r rfl
              simp [operands, hlen, toOperand, takesRest]
          | _ => simp [operands, toOperand]
      | _ => simp [operands, toOperand]

theorem operands_eq_map (symbol : String) (ps : List Pattern) :
    operands symbol ps = (ps.flatMap (operandsOf symbol)).map toOperand := by
  induction ps with
  | nil => rfl
  | cons p ps ih =>
      rw [List.flatMap_cons, List.map_append, ← ih, ← operands_singleton, ← operands_cons]

/-- Induction over patterns. The operands of a chain count as parts of it. -/
theorem ind {P : Pattern → Prop} (anything : P .anything) (anyMore : P .anyMore)
    (capture : ∀ p key, P p → P (.capture p key)) (ofKind : ∀ kind, P (.ofKind kind))
    (anyOf : ∀ ps, (∀ p ∈ ps, P p) → P (.anyOf ps)) (allOf : ∀ ps, (∀ p ∈ ps, P p) → P (.allOf ps))
    (excluding : ∀ p, P p → P (.excluding p)) (commuting : ∀ p, P p → P (.commuting p))
    (literal : ∀ v, P (.literal v))
    (node : ∀ h ps, (∀ p ∈ ps, P p) → (∀ symbol, ∀ p ∈ ps.flatMap (operandsOf symbol), P p) →
      P (.node h ps)) (p : Pattern) : P p := by
  have hself {p : Pattern} (hp : P p) (h : ∀ symbol, p.operandsOf symbol = [p]) :
      P p ∧ ∀ symbol, ∀ q ∈ p.operandsOf symbol, P q :=
    ⟨hp, fun symbol => by rw [h]; exact List.forall_mem_singleton.2 hp⟩
  -- The operands of a chain are deeper than its arguments, so that they are carried along.
  suffices h : P p ∧ ∀ symbol, ∀ q ∈ p.operandsOf symbol, P q from h.1
  refine Pattern.rec (motive_1 := fun p => P p ∧ ∀ symbol, ∀ q ∈ p.operandsOf symbol, P q)
    (motive_2 := fun ps => ∀ p ∈ ps, P p ∧ ∀ symbol, ∀ q ∈ p.operandsOf symbol, P q)
    (hself anything fun _ => rfl) (hself anyMore fun _ => rfl)
    (fun p key hp => hself (capture p key hp.1) fun _ => rfl) (fun kind => hself (ofKind kind) fun _ => rfl)
    (fun ps hps => hself (anyOf ps fun p hp => (hps p hp).1) fun _ => rfl)
    (fun ps hps => hself (allOf ps fun p hp => (hps p hp).1) fun _ => rfl)
    (fun p hp => hself (excluding p hp.1) fun _ => rfl) (fun p hp => hself (commuting p hp.1) fun _ => rfl)
    (fun v => hself (literal v) fun _ => rfl) (fun h ps hps => ?_) (List.forall_mem_nil _)
    (fun p ps hp hps => List.forall_mem_cons.2 ⟨hp, hps⟩) p
  have hoperands (symbol : String) (q : Pattern) (hq : q ∈ ps.flatMap (operandsOf symbol)) : P q := by
    obtain ⟨p, hp, hq⟩ := List.mem_flatMap.1 hq
    exact (hps p hp).2 symbol q hq
  have hnode := node h ps (fun p hp => (hps p hp).1) hoperands
  refine ⟨hnode, fun symbol => ?_⟩
  by_cases hchain : ∃ o p q, h = .op o ∧ ps = [p, q] ∧ o.symbol = symbol
  · obtain ⟨o, p, q, rfl, rfl, hsymbol⟩ := hchain
    rw [operandsOf, if_pos hsymbol]
    simpa using hoperands symbol
  · rw [operandsOf_of_ne fun o p q heq hsymbol => ?_]
    · exact List.forall_mem_singleton.2 hnode
    · cases heq
      exact hchain ⟨o, p, q, rfl, rfl, hsymbol⟩

/-! ### Nodes -/

variable {commute : Bool} {h k : Head} {ps : List Pattern} {t : Tree} {ts left : List Tree}
  {found found' : Captures}

/-- The operator whose operands a node takes in any order, if it does. -/
def anyOrder? (commute : Bool) (h : Head) (ps : List Pattern) : Option String :=
  if commute = true ∧ ps.length = 2 then commutative? h else none

theorem exists_of_anyOrder? {symbol : String} (hsome : anyOrder? commute h ps = some symbol) :
    ∃ o p q, commute = true ∧ h = .op o ∧ ps = [p, q] ∧ o.symbol = symbol ∧
      Operator.isCommutative symbol = true := by
  unfold anyOrder? at hsome
  split at hsome
  · rename_i hboth
    obtain ⟨p, q, rfl⟩ := List.length_eq_two.1 hboth.2
    unfold commutative? at hsome
    split at hsome
    · rename_i o
      split_ifs at hsome with hcommutes
      cases hsome
      exact ⟨o, p, q, hboth.1, rfl, rfl, rfl, hcommutes⟩
    · cases hsome
  · cases hsome

theorem operandsOf_node {symbol : String} (hsome : anyOrder? commute h ps = some symbol) :
    (node h ps).operandsOf symbol = ps.flatMap (operandsOf symbol) := by
  obtain ⟨o, p, q, -, rfl, rfl, hsymbol, -⟩ := exists_of_anyOrder? hsome
  rw [operandsOf, if_pos hsymbol, List.flatMap_cons, List.flatMap_cons, List.flatMap_nil, List.append_nil]

theorem matchers_eq_map (commute : Bool) (ps : List Pattern) :
    matchers commute ps = ps.map (matcher commute) := by
  induction ps with
  | nil => rfl
  | cons p ps ih => rw [matchers, List.map_cons, ih]

theorem matcher_node_pairwise (hnone : anyOrder? commute h ps = none) :
    matcher commute (.node h ps) (.node k ts) found =
      if headFits h k then pairwise (ps.map (matcher commute)) ts found else none := by
  rw [matcher, matchers_eq_map]
  unfold anyOrder? at hnone
  split
  · split
    · split
      · rename_i hcommutes hboth
        rw [if_pos hboth, hcommutes] at hnone
        cases hnone
      · rfl
    · rfl
  · rfl

theorem matcher_node_anyOrder {symbol : String} (hsome : anyOrder? commute h ps = some symbol) :
    matcher commute (.node h ps) (.node k ts) found =
      if headFits h k then
        anyOrder symbol ((ps.flatMap (operandsOf symbol)).map toOperand) (.node k ts) found
      else none := by
  unfold anyOrder? at hsome
  split at hsome
  · rename_i hboth
    rw [matcher, hsome, ← operands_eq_map]
    simp only [if_pos hboth]
  · cases hsome

theorem matcher_anyOf : matcher commute (.anyOf ps) t found =
    ps.findSome? fun p => matcher commute p t found := by
  rw [matcher, matchers_eq_map, List.findSome?_map]
  rfl

/-- Patterns that all have to match are matched like those of several trees. -/
theorem matcher_allOf : matcher commute (.allOf ps) t found =
    pairwise (ps.map (matcher commute)) (ps.map fun _ => t) found := by
  rw [matcher, matchers_eq_map]
  induction ps generalizing found with
  | nil => rfl
  | cons p ps ih =>
      simp only [List.map_cons, List.foldlM_cons, pairwise]
      exact congrArg _ (funext fun found => ih)

/-! ### Operands in any order -/

/-- The last operand of a chain, if it takes all operands that are left. -/
def rest? (qs : List Pattern) : Option Pattern := qs.getLast?.filter takesRest

/-- The operands of a chain that take one operand each. -/
def single (qs : List Pattern) : List Pattern := if (rest? qs).isSome then qs.dropLast else qs

theorem single_append_rest? (qs : List Pattern) : single qs ++ (rest? qs).toList = qs := by
  unfold single
  cases hrest : rest? qs with
  | none => exact List.append_nil qs
  | some q =>
      obtain ⟨hlast, -⟩ := Option.filter_eq_some_iff.1 hrest
      exact List.dropLast_append_getLast? q hlast

theorem takesRest_of_rest? {qs : List Pattern} {q : Pattern} (h : rest? qs = some q) :
    q = .anyMore ∨ ∃ key, q = .capture .anyMore key := by
  obtain ⟨-, htakes⟩ := Option.filter_eq_some_iff.1 h
  unfold takesRest at htakes
  split at htakes
  · exact .inl rfl
  · exact .inr ⟨_, rfl⟩
  · cases htakes

/-- The operands that are left are matched as one chain. Without a pattern for them there are none. -/
def absorb (symbol : String) (rest : Option Pattern) (left : List Tree) (found : Captures) :
    Option Captures :=
  match rest with
  | some q => (Tree.chain? symbol left).bind fun t => matcher true q t found
  | none => if left.isEmpty then some found else none

theorem length_eq_of_pairwise {ms : List Matcher}
    (h : pairwise ms ts found = some found') : ms.length = ts.length := by
  induction ms generalizing ts found with
  | nil =>
      cases ts with
      | nil => rfl
      | cons t ts => cases h
  | cons m ms ih =>
      cases ts with
      | nil => cases h
      | cons t ts =>
          obtain ⟨_, -, hrest⟩ := Option.bind_eq_some_iff.1 h
          exact congrArg Nat.succ (ih hrest)

/-- One matcher after another takes a tree out of a list, until none is left that has not taken one. -/
inductive Takes : List Matcher → List Tree → Captures → List Tree → Captures → Prop
  | nil {ts : List Tree} {found : Captures} : Takes [] ts found ts found
  | cons {m : Matcher} {ms : List Matcher} {before after left : List Tree} {t : Tree}
      {found found₁ found' : Captures} (hfirst : m t found = some found₁)
      (hrest : Takes ms (before ++ after) found₁ left found') :
      Takes (m :: ms) (before ++ t :: after) found left found'

theorem Takes.of_pairwise {ms : List Matcher} (h : pairwise ms ts found = some found') :
    Takes ms ts found [] found' := by
  induction ms generalizing ts found with
  | nil =>
      cases ts with
      | nil =>
          cases h
          exact .nil
      | cons t ts => cases h
  | cons m ms ih =>
      cases ts with
      | nil => cases h
      | cons t ts =>
          obtain ⟨found₁, hfirst, hrest⟩ := Option.bind_eq_some_iff.1 h
          rw [← List.nil_append (t :: ts)]
          exact .cons hfirst (ih hrest)

theorem exists_of_firstOf {α β : Type} {f : α → List α → Option β} {before as : List α} {b : β}
    (h : firstOf f before as = some b) :
    ∃ pre a post, as = pre ++ a :: post ∧ f a (before.reverse ++ (pre ++ post)) = some b := by
  induction as generalizing before with
  | nil => cases h
  | cons a as ih =>
      unfold firstOf at h
      split at h
      · cases h
        exact ⟨[], a, as, rfl, by assumption⟩
      · obtain ⟨pre, c, post, rfl, hc⟩ := ih h
        exact ⟨a :: pre, c, post, rfl, by simpa using hc⟩

theorem isSome_firstOf {α β : Type} {f : α → List α → Option β} {before pre post : List α} {a : α}
    (h : (f a (before.reverse ++ (pre ++ post))).isSome = true) :
    (firstOf f before (pre ++ a :: post)).isSome = true := by
  induction pre generalizing before with
  | nil =>
      obtain ⟨b, hb⟩ := Option.isSome_iff_exists.1 h
      rw [List.nil_append, firstOf, show f a (before.reverse ++ post) = some b from hb]
      rfl
  | cons c pre ih =>
      rw [List.cons_append, firstOf]
      split
      · rfl
      · exact ih (by simpa using h)

section Search

variable {finish : List Tree → Captures → Option Captures} {ms : List Matcher}

/-- What is found was taken. -/
theorem exists_takes_of_assign {result : Captures} (h : assign finish ms ts found = some result) :
    ∃ left found', Takes ms ts found left found' ∧ finish left found' = some result := by
  induction ms generalizing ts found with
  | nil => exact ⟨ts, found, .nil, h⟩
  | cons m ms ih =>
      obtain ⟨before, t, after, rfl, ht⟩ := exists_of_firstOf h
      obtain ⟨found₁, hfirst, hrest⟩ := Option.bind_eq_some_iff.1 ht
      obtain ⟨left, found', htakes, hfinish⟩ := ih hrest
      exact ⟨left, found', .cons hfirst htakes, hfinish⟩

/-- All ways to take operands are tried. -/
theorem isSome_assign_iff : (assign finish ms ts found).isSome = true ↔
    ∃ left found', Takes ms ts found left found' ∧ (finish left found').isSome = true := by
  constructor
  · intro h
    obtain ⟨result, hresult⟩ := Option.isSome_iff_exists.1 h
    obtain ⟨left, found', htakes, hfinish⟩ := exists_takes_of_assign hresult
    exact ⟨left, found', htakes, Option.isSome_iff_exists.2 ⟨result, hfinish⟩⟩
  · -- The search need not take these operands, but if it comes to them, it goes no further.
    rintro ⟨left, found', htakes, hfinish⟩
    induction htakes with
    | nil => exact hfinish
    | cons hfirst _ ih =>
        rw [assign]
        refine isSome_firstOf ?_
        rw [List.reverse_nil, List.nil_append, hfirst]
        exact ih hfinish

/-- Operands that match one by one are tried first. -/
theorem assign_of_pairwise {result : Captures} (h : pairwise ms ts found = some found')
    (hfinish : finish left found' = some result) : assign finish ms (ts ++ left) found = some result := by
  induction ms generalizing ts found with
  | nil =>
      cases ts with
      | nil =>
          cases h
          exact hfinish
      | cons t ts => cases h
  | cons m ms ih =>
      cases ts with
      | nil => cases h
      | cons t ts =>
          obtain ⟨found₁, hfirst, hrest⟩ := Option.bind_eq_some_iff.1 h
          rw [assign, List.cons_append, firstOf, hfirst]
          simp only [Option.bind_some, List.reverse_nil, List.nil_append, ih hrest]

theorem Takes.length_le (h : Takes ms ts found left found') : ms.length ≤ ts.length := by
  induction h with
  | nil => exact Nat.zero_le _
  | cons _ _ ih =>
      rw [List.length_append] at ih
      simp only [List.length_append, List.length_cons]
      omega

theorem assign_eq_none_of_length_lt (h : ts.length < ms.length) : assign finish ms ts found = none := by
  cases hresult : assign finish ms ts found with
  | none => rfl
  | some result =>
      obtain ⟨left, found', htakes, -⟩ := exists_takes_of_assign hresult
      exact absurd htakes.length_le (Nat.not_le.2 h)

end Search

/-- A chain is matched by a search for the operands that take one operand each. -/
theorem anyOrder_eq_assign (symbol : String) (qs : List Pattern) (t : Tree) (found : Captures) :
    anyOrder symbol (qs.map toOperand) t found =
      assign (absorb symbol (rest? qs)) ((single qs).map (matcher true)) (t.operandsOf symbol) found := by
  -- With fewer operands than patterns there is nothing to be found anyway.
  have hguard (finish : List Tree → Captures → Option Captures) (qs : List Pattern) :
      (if (t.operandsOf symbol).length < (qs.map toOperand).length then none
        else assign finish ((qs.map toOperand).map Prod.snd) (t.operandsOf symbol) found) =
        assign finish (qs.map (matcher true)) (t.operandsOf symbol) found := by
    have hmatchers : (qs.map toOperand).map Prod.snd = qs.map (matcher true) := by
      rw [List.map_map]
      rfl
    rw [hmatchers]
    split
    · rename_i hlt
      rw [assign_eq_none_of_length_lt (by simpa using hlt)]
    · rfl
  unfold anyOrder single rest?
  simp only [List.getLast?_map, ← List.map_dropLast, hguard]
  cases qs.getLast? with
  | none => rfl
  | some q =>
      rw [Option.map_some, toOperand]
      cases hq : q.takesRest with
      | true =>
          simp only [Option.filter, hq, if_true, Option.isSome_some]
          rfl
      | false =>
          simp only [Option.filter, hq, Bool.false_eq_true, if_false, Option.isSome_none]
          rfl

/-! ### What is captured -/

theorem mem_captureNamesOf {key : String} : key ∈ captureNamesOf ps ↔ ∃ p ∈ ps, key ∈ p.captureNames := by
  induction ps with
  | nil => simp [captureNamesOf]
  | cons p ps ih => simp [captureNamesOf, ih]

theorem mem_captureNames_operandsOf {symbol key : String} {p q : Pattern} (hq : q ∈ p.operandsOf symbol)
    (hkey : key ∈ q.captureNames) : key ∈ p.captureNames := by
  fun_induction operandsOf symbol p with
  | case1 o p₁ p₂ _ h₁ h₂ =>
      rw [captureNames, mem_captureNamesOf]
      rcases List.mem_append.1 hq with hq | hq
      · exact ⟨p₁, List.mem_cons_self, h₁ hq⟩
      · exact ⟨p₂, by simp, h₂ hq⟩
  | case2 | case3 => rwa [← List.mem_singleton.1 hq]

section Run

variable {Q : Tree → Prop} {R : Captures → Captures → Prop}

theorem Takes.rel (hrefl : ∀ f, R f f) (htrans : ∀ {f g h}, R f g → R g h → R f h)
    {ms : List Matcher} (hms : ∀ m ∈ ms, ∀ t f f', Q t → m t f = some f' → R f f') (hts : ∀ t ∈ ts, Q t)
    (h : Takes ms ts found left found') : R found found' ∧ ∀ t ∈ left, Q t := by
  induction h with
  | nil => exact ⟨hrefl _, hts⟩
  | cons hfirst _ ih =>
      obtain ⟨hm, hms⟩ := List.forall_mem_cons.1 hms
      obtain ⟨hbefore, hts⟩ := List.forall_mem_append.1 hts
      obtain ⟨ht, hafter⟩ := List.forall_mem_cons.1 hts
      obtain ⟨hrel, hleft⟩ := ih hms (List.forall_mem_append.2 ⟨hbefore, hafter⟩)
      exact ⟨htrans (hm _ _ _ ht hfirst) hrel, hleft⟩

theorem rel_of_pairwise (hrefl : ∀ f, R f f) (htrans : ∀ {f g h}, R f g → R g h → R f h)
    {ms : List Matcher} (hms : ∀ m ∈ ms, ∀ t f f', Q t → m t f = some f' → R f f') (hts : ∀ t ∈ ts, Q t)
    (h : pairwise ms ts found = some found') : R found found' :=
  ((Takes.of_pairwise h).rel hrefl htrans hms hts).1

theorem rel_of_anyOrder (hQ : Tree.IsInherited Q) (hrefl : ∀ f, R f f)
    (htrans : ∀ {f g h}, R f g → R g h → R f h) {symbol : String} {qs : List Pattern}
    (hqs : ∀ q ∈ qs, ∀ t f f', Q t → matcher true q t f = some f' → R f f') (ht : Q t)
    (h : anyOrder symbol (qs.map toOperand) t found = some found') : R found found' := by
  rw [anyOrder_eq_assign] at h
  obtain ⟨left, found₁, htakes, hfinish⟩ := exists_takes_of_assign h
  rw [← single_append_rest? qs] at hqs
  obtain ⟨hsingle, hrest⟩ := List.forall_mem_append.1 hqs
  obtain ⟨hrel, hleft⟩ :=
    htakes.rel hrefl htrans (List.forall_mem_map.2 hsingle) (hQ.operandsOf symbol ht)
  -- What is left is a chain of operands, and matched last.
  refine htrans hrel ?_
  unfold absorb at hfinish
  split at hfinish
  · rename_i q hq
    obtain ⟨u, hu, hfinish⟩ := Option.bind_eq_some_iff.1 hfinish
    exact hrest q (by simp [hq]) u found₁ found' (hQ.chain hleft hu) hfinish
  · split_ifs at hfinish
    cases hfinish
    exact hrefl _

/-- A match is made of single captures: what each of them does to the captures, the match does. What is
captured has every property that arguments and chains of operands inherit. -/
theorem rel_of_matcher (hQ : Tree.IsInherited Q) (hrefl : ∀ f, R f f)
    (htrans : ∀ {f g h}, R f g → R g h → R f h) (p : Pattern)
    (hbind : ∀ key ∈ p.captureNames, ∀ u f f', Q u → f.bind key u = some f' → R f f') :
    ∀ t found found', Q t → matcher commute p t found = some found' → R found found' := by
  induction p using ind generalizing commute with
  | anything | anyMore =>
      rintro t found _ - ⟨⟩
      exact hrefl found
  | capture p key ih =>
      intro t found found' ht h
      obtain ⟨found₁, hfirst, hrest⟩ := Option.bind_eq_some_iff.1 h
      have hp := ih (fun k hk => hbind k (List.mem_cons_of_mem key hk)) t found found₁ ht hfirst
      exact htrans hp (hbind key List.mem_cons_self t found₁ found' ht hrest)
  | ofKind kind =>
      intro t found found' _ h
      rw [matcher] at h
      split_ifs at h
      cases h
      exact hrefl found
  | anyOf ps ih =>
      intro t found found' ht h
      rw [matcher_anyOf] at h
      obtain ⟨p, hp, h⟩ := List.exists_of_findSome?_eq_some h
      exact ih p hp (fun k hk => hbind k (mem_captureNamesOf.2 ⟨p, hp, hk⟩)) t found found' ht h
  | allOf ps ih =>
      intro t found found' ht h
      rw [matcher_allOf] at h
      refine rel_of_pairwise (Q := Q) hrefl htrans (List.forall_mem_map.2 fun p hp => ?_) (fun u hu => ?_) h
      · exact ih p hp fun k hk => hbind k (mem_captureNamesOf.2 ⟨p, hp, hk⟩)
      · obtain ⟨-, -, rfl⟩ := List.mem_map.1 hu
        exact ht
  | excluding p _ =>
      intro t found found' _ h
      rw [matcher] at h
      split_ifs at h
      cases h
      exact hrefl found
  | commuting p ih => exact fun t found found' ht h => ih hbind t found found' ht h
  | literal v =>
      intro t found found' _ h
      cases t with
      | node k ts => cases h
      | leaf w =>
          rw [matcher] at h
          split_ifs at h
          cases h
          exact hrefl found
  | node h ps ih ihoperands =>
      intro t found found' ht hmatch
      cases t with
      | leaf w => cases hmatch
      | node k ts =>
          cases hany : anyOrder? commute h ps with
          | none =>
              rw [matcher_node_pairwise hany] at hmatch
              split_ifs at hmatch
              refine rel_of_pairwise (Q := Q) hrefl htrans (List.forall_mem_map.2 fun p hp => ?_) (hQ.args ht)
                hmatch
              exact ih p hp fun k hk => hbind k (mem_captureNamesOf.2 ⟨p, hp, hk⟩)
          | some symbol =>
              rw [matcher_node_anyOrder hany] at hmatch
              split_ifs at hmatch
              refine rel_of_anyOrder hQ hrefl htrans (fun q hq => ?_) ht hmatch
              refine ihoperands symbol q hq fun key hkey => hbind key ?_
              obtain ⟨p, hp, hq⟩ := List.mem_flatMap.1 hq
              exact mem_captureNamesOf.2 ⟨p, hp, mem_captureNames_operandsOf hq hkey⟩

end Run

/-- A match leaves alone what has been captured under other names than its own. -/
theorem find?_of_matcher {p : Pattern} {key : String} (hkey : key ∉ p.captureNames)
    (h : matcher commute p t found = some found') : found'.find? key = found.find? key := by
  refine rel_of_matcher (Q := fun _ => True) (R := fun f g => g.find? key = f.find? key)
    ⟨fun _ _ _ => trivial, fun _ _ => trivial⟩ (fun _ => rfl) (fun hfg hgh => hgh.trans hfg) p
    (fun k hk u f f' _ hbind => ?_) t found found' trivial h
  have hne : key ≠ k := fun heq => hkey (heq ▸ hk)
  rw [Captures.eq_insert_of_bind hbind, Table.find?_insert, if_neg hne]

theorem find?_of_pairwise {key : String} (hkey : key ∉ captureNamesOf ps)
    (h : pairwise (ps.map (matcher commute)) ts found = some found') :
    found'.find? key = found.find? key := by
  refine rel_of_pairwise (Q := fun _ => True) (R := fun f g => g.find? key = f.find? key) (fun _ => rfl)
    (fun hfg hgh => hgh.trans hfg) (List.forall_mem_map.2 fun p hp => ?_) (fun _ _ => trivial) h
  exact fun t f f' _ => find?_of_matcher fun hkey' => hkey (mem_captureNamesOf.2 ⟨p, hp, hkey'⟩)

end Pattern

end MathExpr
