import MathExpr.Proofs.NamesApart

/-!
# Any order allows for more

A match with operands in order is found when these may stand in any order, too
(`Pattern.isSome_find_of_inOrder`), for the order in which they stand is tried first
(`Pattern.assign_of_pairwise`). There are two provisos.

* The operands of the tree have to line up with those of the pattern (`Pattern.LinesUp`): in order, an
  operand of a chain may be a chain of the same operator, but in any order this counts as several
  operands.
* Another of several alternatives may match first now, and operands that are left may be grouped in another
  way. The names under which this makes a difference (`Pattern.variableNames`) are used by only one of
  the parts that have to match together.

Neither can be done without (`Pattern.not_isSome_find_of_inOrder`).
-/

namespace MathExpr.Pattern

open Captures (AgreeOn)

variable {p q : Pattern} {ps qs : List Pattern} {h k : Head} {t u : Tree} {ts us : List Tree}
  {f g f' g' : Captures} {symbol key : String}

/-! ### Operands that line up -/

/-- The operands of a tree that stand where the operands of a chain stand in a pattern. -/
def operandsAlong (symbol : String) : Pattern → Tree → List Tree
  | node (.op o) [p, q], .node h [t, u] =>
    if o.symbol = symbol then operandsAlong symbol p t ++ operandsAlong symbol q u else [.node h [t, u]]
  | _, t => [t]

/-- Operands of a chain, where the last stands for all of its own if the patterns have one for the rest. -/
def unrolled (symbol : String) (qs : List Pattern) (us : List Tree) : List Tree :=
  if (rest? qs).isSome then us.dropLast ++ us.getLast?.toList.flatMap (Tree.operandsOf symbol) else us

/-- Whether a pattern is a chain of a commutative operator. -/
def isChain : Pattern → Bool
  | node h ps => (anyOrder? true h ps).isSome
  | _ => false

/-- Wherever a pattern matches a chain of a commutative operator in order, its operands stand for the operands of
the chain, one by one; but the last may stand for several if it is for the rest. -/
inductive LinesUp : Pattern → Tree → Prop
  | unmatched {p : Pattern} {t : Tree} (hnone : ∀ found, matcher false p t found = none) : LinesUp p t
  | chainless {p : Pattern} {t : Tree} (hparts : ∀ q ∈ p.parts false, q.isChain = false) : LinesUp p t
  | capture {p : Pattern} {key : String} {t : Tree} (hp : LinesUp p t) : LinesUp (capture p key) t
  | anyOf {ps : List Pattern} {t : Tree} (hps : ∀ p ∈ ps, LinesUp p t) : LinesUp (anyOf ps) t
  | allOf {ps : List Pattern} {t : Tree} (hps : ∀ p ∈ ps, LinesUp p t) : LinesUp (allOf ps) t
  | node {h k : Head} {ps : List Pattern} {ts : List Tree} (hargs : ∀ x ∈ ps.zip ts, LinesUp x.1 x.2)
      (hchain : ∀ symbol, anyOrder? true h ps = some symbol →
        (Tree.node k ts).operandsOf symbol = unrolled symbol (ps.flatMap (operandsOf symbol))
          (operandsAlong symbol (node h ps) (.node k ts))) :
      LinesUp (node h ps) (.node k ts)

theorem pairwise_append_iff {ms ms' : List Matcher} : pairwise (ms ++ ms') ts f = some f' ↔
    ∃ ts₁ ts₂ f₁, ts = ts₁ ++ ts₂ ∧ pairwise ms ts₁ f = some f₁ ∧ pairwise ms' ts₂ f₁ = some f' := by
  constructor
  · intro hpairwise
    induction ms generalizing ts f with
    | nil => exact ⟨[], ts, f, rfl, rfl, hpairwise⟩
    | cons m ms ih =>
        cases ts with
        | nil => cases hpairwise
        | cons t ts =>
            obtain ⟨f₁, hfirst, hrest⟩ := Option.bind_eq_some_iff.1 hpairwise
            obtain ⟨ts₁, ts₂, f₂, rfl, h₁, h₂⟩ := ih hrest
            refine ⟨t :: ts₁, ts₂, f₂, rfl, ?_, h₂⟩
            rw [pairwise, hfirst]
            exact h₁
  · rintro ⟨ts₁, ts₂, f₁, rfl, h₁, h₂⟩
    induction ms generalizing ts₁ f with
    | nil =>
        cases ts₁ with
        | nil =>
            cases h₁
            exact h₂
        | cons t ts₁ => cases h₁
    | cons m ms ih =>
        cases ts₁ with
        | nil => cases h₁
        | cons t ts₁ =>
            obtain ⟨f₂, hfirst, hrest⟩ := Option.bind_eq_some_iff.1 h₁
            rw [List.cons_append, List.cons_append, pairwise, hfirst]
            exact ih ts₁ hrest

theorem operandsAlong_of_ne (hp : ∀ o q r, p = node (.op o) [q, r] → o.symbol ≠ symbol) :
    operandsAlong symbol p t = [t] := by
  unfold operandsAlong
  split
  · rename_i o q r k t u
    rw [if_neg (hp o q r rfl)]
  · rfl

theorem matcher_node_inOrder (hmatch : matcher false (node h ps) t f = some f') :
    ∃ k ts, t = .node k ts ∧ headFits h k = true ∧ pairwise (ps.map (matcher false)) ts f = some f' := by
  cases t with
  | leaf v => cases hmatch
  | node k ts =>
      rw [matcher_node_pairwise (by simp [anyOrder?])] at hmatch
      split_ifs at hmatch with hfits
      exact ⟨k, ts, rfl, hfits, hmatch⟩

/-- Where a chain matches in order, its operand patterns match the operands one by one. -/
theorem pairwise_operandsAlong (symbol : String) (hmatch : matcher false p t f = some f') :
    pairwise ((p.operandsOf symbol).map (matcher false)) (operandsAlong symbol p t) f = some f' := by
  have hsingle {p : Pattern} {t : Tree} {f f' : Captures} (hmatch : matcher false p t f = some f') :
      pairwise ([p].map (matcher false)) [t] f = some f' := by
    rw [List.map_singleton, pairwise, hmatch]
    rfl
  fun_induction operandsOf symbol p generalizing t f f' with
  | case1 o p q hsymbol hp hq =>
      obtain ⟨k, ts, rfl, -, hargs⟩ := matcher_node_inOrder hmatch
      obtain ⟨t, u, rfl⟩ := List.length_eq_two.1 (length_eq_of_pairwise hargs).symm
      obtain ⟨f₁, hfirst, hargs⟩ := Option.bind_eq_some_iff.1 hargs
      obtain ⟨f₂, hsecond, hargs⟩ := Option.bind_eq_some_iff.1 hargs
      cases hargs
      rw [operandsAlong, if_pos hsymbol, List.map_append]
      exact pairwise_append_iff.2 ⟨_, _, f₁, rfl, hp hfirst, hq hsecond⟩
  | case2 o p q hsymbol =>
      rw [operandsAlong_of_ne fun o' q' r' heq => by cases heq; exact hsymbol]
      exact hsingle hmatch
  | case3 p hp =>
      rw [operandsAlong_of_ne fun o q r heq => absurd heq (hp o q r)]
      exact hsingle hmatch

theorem linesUp_of_capture (hlines : LinesUp (capture p key) t)
    (hmatch : matcher false (capture p key) t f = some f') : LinesUp p t := by
  cases hlines with
  | unmatched hnone =>
      rw [hnone] at hmatch
      cases hmatch
  | chainless hparts => exact .chainless (List.forall_mem_cons.1 hparts).2
  | capture hp => exact hp

theorem linesUp_of_anyOf (hlines : LinesUp (anyOf ps) t) (hmatch : matcher false (anyOf ps) t f = some f') :
    ∀ p ∈ ps, LinesUp p t := by
  intro p hp
  cases hlines with
  | unmatched hnone =>
      rw [hnone] at hmatch
      cases hmatch
  | chainless hparts =>
      exact .chainless fun q hq => hparts q (List.mem_cons_of_mem _ (mem_partsOf.2 ⟨p, hp, hq⟩))
  | anyOf hps => exact hps p hp

theorem linesUp_of_allOf (hlines : LinesUp (allOf ps) t) (hmatch : matcher false (allOf ps) t f = some f') :
    ∀ p ∈ ps, LinesUp p t := by
  intro p hp
  cases hlines with
  | unmatched hnone =>
      rw [hnone] at hmatch
      cases hmatch
  | chainless hparts =>
      exact .chainless fun q hq => hparts q (List.mem_cons_of_mem _ (mem_partsOf.2 ⟨p, hp, hq⟩))
  | allOf hps => exact hps p hp

theorem linesUp_of_node (hlines : LinesUp (node h ps) (.node k ts))
    (hmatch : matcher false (node h ps) (.node k ts) f = some f') :
    (∀ x ∈ ps.zip ts, LinesUp x.1 x.2) ∧ ∀ symbol, anyOrder? true h ps = some symbol →
      (Tree.node k ts).operandsOf symbol = unrolled symbol (ps.flatMap (operandsOf symbol))
        (operandsAlong symbol (node h ps) (.node k ts)) := by
  cases hlines with
  | unmatched hnone =>
      rw [hnone] at hmatch
      cases hmatch
  | chainless hparts =>
      refine ⟨fun x hx => .chainless fun q hq => hparts q (List.mem_cons_of_mem _ ?_), fun symbol hany => ?_⟩
      · exact mem_partsOf.2 ⟨x.1, (List.of_mem_zip hx).1, hq⟩
      · have hchain := (List.forall_mem_cons.1 hparts).1
        rw [isChain, hany] at hchain
        cases hchain
  | node hargs hchain => exact ⟨hargs, hchain⟩

theorem linesUp_operandsAlong (symbol : String) (hlines : LinesUp p t) (hmatch : matcher false p t f = some f') :
    ∀ x ∈ (p.operandsOf symbol).zip (operandsAlong symbol p t), LinesUp x.1 x.2 := by
  fun_induction operandsOf symbol p generalizing t f f' with
  | case1 o p q hsymbol hp hq =>
      obtain ⟨k, ts, rfl, -, hpairwise⟩ := matcher_node_inOrder hmatch
      obtain ⟨hargs, -⟩ := linesUp_of_node hlines hmatch
      obtain ⟨t, u, rfl⟩ := List.length_eq_two.1 (length_eq_of_pairwise hpairwise).symm
      obtain ⟨f₁, hfirst, hpairwise⟩ := Option.bind_eq_some_iff.1 hpairwise
      obtain ⟨f₂, hsecond, -⟩ := Option.bind_eq_some_iff.1 hpairwise
      have hlength := length_eq_of_pairwise (pairwise_operandsAlong symbol hfirst)
      rw [operandsAlong, if_pos hsymbol, List.zip_append (by simpa using hlength)]
      obtain ⟨ht, hargs⟩ := List.forall_mem_cons.1 hargs
      obtain ⟨hu, -⟩ := List.forall_mem_cons.1 hargs
      exact List.forall_mem_append.2 ⟨hp ht hfirst, hq hu hsecond⟩
  | case2 o p q hsymbol =>
      rw [operandsAlong_of_ne fun o' q' r' heq => by cases heq; exact hsymbol]
      simpa using hlines
  | case3 p hp =>
      rw [operandsAlong_of_ne fun o q r heq => absurd heq (hp o q r)]
      simpa using hlines

/-! ### Variable names -/

mutual

/-- The names that a pattern uses in one of several alternatives, or for operands that are left. -/
def variableNames : Pattern → List String
  | capture p key => if takesRest (capture p key) then [key] else variableNames p
  | anyOf ps => usedNamesOf ps
  | allOf ps | node _ ps => variableNamesOf ps
  | excluding p => variableNames p
  | _ => []

/-- The variable names of the patterns of a list. -/
def variableNamesOf : List Pattern → List String
  | [] => []
  | p :: ps => variableNames p ++ variableNamesOf ps

end

theorem variableNamesOf_eq_flatMap (ps : List Pattern) : variableNamesOf ps = ps.flatMap variableNames := by
  induction ps with
  | nil => rfl
  | cons p ps ih => rw [variableNamesOf, List.flatMap_cons, ih]

theorem variableNames_subset_usedNames (p : Pattern) : p.variableNames ⊆ p.usedNames := by
  have hlist {ps : List Pattern} (ih : ∀ p ∈ ps, p.variableNames ⊆ p.usedNames) :
      variableNamesOf ps ⊆ usedNamesOf ps := by
    rw [variableNamesOf_eq_flatMap]
    intro key hkey
    obtain ⟨p, hp, hkey⟩ := List.mem_flatMap.1 hkey
    exact mem_usedNamesOf.2 ⟨p, hp, ih p hp hkey⟩
  induction p using ind with
  | capture p key ih =>
      rw [variableNames, usedNames]
      split
      · exact List.cons_subset_cons key (List.nil_subset _)
      · exact List.subset_cons_of_subset key ih
  | anyOf ps ih => exact List.Subset.refl _
  | allOf ps ih | node h ps ih _ => exact hlist ih
  | excluding p ih => exact ih
  | _ => exact List.nil_subset _

theorem variableNames_operandsOf (symbol : String) (p : Pattern) :
    (p.operandsOf symbol).flatMap variableNames = p.variableNames := by
  fun_induction operandsOf symbol p with
  | case1 o p q _ hp hq =>
      rw [List.flatMap_append, hp, hq, variableNames, variableNamesOf, variableNamesOf, variableNamesOf,
        List.append_nil]
  | case2 | case3 => simp

/-- The variable names of a node are those of the parts that have to match together. -/
theorem variableNames_node (h : Head) (ps : List Pattern) :
    (node h ps).variableNames = (node h ps).joint.flatMap variableNames := by
  rw [variableNames, variableNamesOf_eq_flatMap]
  cases hany : anyOrder? true h ps with
  | none => rw [joint_node_of_none hany]
  | some symbol =>
      rw [joint_node_of_some hany, List.flatMap_assoc]
      exact List.flatMap_congr fun p _ => (variableNames_operandsOf symbol p).symm

/-! ### Matching in any order -/

/-- What a pattern matches in order, it also matches in any order. -/
abbrev AllowsAnyOrder (p : Pattern) : Prop :=
  Carries variableNames false (fun p t u => t = u ∧ LinesUp p t) p

theorem allowsAnyOrder_capture (hsplits : (capture p key).SplitsNames variableNames) (hp : AllowsAnyOrder p) :
    AllowsAnyOrder (capture p key) := by
  rintro K t _ f g f' hcovers ⟨rfl, hlines⟩ hfg hf hg hmatch
  have hlinesp := linesUp_of_capture hlines hmatch
  cases hrest : takesRest (capture p key) with
  | true =>
      have hvariable : key ∈ (capture p key).variableNames := by
        rw [variableNames, if_pos hrest]
        exact List.mem_singleton_self key
      obtain rfl : p = anyMore := by
        unfold takesRest at hrest
        split at hrest <;> simp_all
      rw [matcher, matcher, Option.bind_some] at hmatch ⊢
      exact hfg.exists_bind_of_not (fun hK => (hcovers key List.mem_cons_self).1 hK hvariable) (hg key hvariable)
        hmatch
  | false =>
      have hvariable : (capture p key).variableNames = p.variableNames := by
        rw [variableNames, if_neg (by simp [hrest])]
      rw [SplitsNames, hvariable] at hsplits
      rw [IsFree, hvariable] at hf hg
      rw [Covers, hvariable] at hcovers
      have hkey : K key := by
        refine (hcovers key List.mem_cons_self).2 fun hkey => ?_
        exact hsplits hkey (variableNames_subset_usedNames p hkey)
      obtain ⟨f₁, hfirst, hbind⟩ := Option.bind_eq_some_iff.1 hmatch
      obtain ⟨g₁, hfirst', hfg₁⟩ :=
        hp (fun k hk => hcovers k (List.mem_cons_of_mem key hk)) ⟨rfl, hlinesp⟩ hfg hf hg hfirst
      rw [matcher, hfirst', Option.bind_some]
      exact exists_of_optionRel (hbind ▸ hfg₁.bind hkey)

theorem allowsAnyOrder_anyOf (hps : ∀ p ∈ ps, AllowsAnyOrder p) : AllowsAnyOrder (anyOf ps) := by
  rintro K t _ f g f' hcovers ⟨rfl, hlines⟩ hfg hf hg hmatch
  have hlines := linesUp_of_anyOf hlines hmatch
  have hnot : ∀ key ∈ (anyOf ps).usedNames, ¬K key := fun key hkey hK => (hcovers key hkey).1 hK hkey
  -- An earlier alternative may match now, which may capture something else.
  have hfind : (matcher true (anyOf ps) t g).isSome = true := by
    rw [matcher_anyOf] at hmatch ⊢
    obtain ⟨p, hp, hmatch⟩ := List.exists_of_findSome?_eq_some hmatch
    have hused : p.usedNames ⊆ (anyOf ps).usedNames := fun key hkey => mem_usedNamesOf.2 ⟨p, hp, hkey⟩
    obtain ⟨g', hmatch', -⟩ := (hps p hp).weaken (variableNames_subset_usedNames p)
      (fun key hkey => hnot key (hused (variableNames_subset_usedNames p hkey))) ⟨rfl, hlines p hp⟩ hfg
      (fun key hkey _ => hf key (hused hkey)) (fun key hkey _ => hg key (hused hkey)) hmatch
    exact List.findSome?_isSome_iff.2 ⟨p, hp, Option.isSome_of_eq_some hmatch'⟩
  obtain ⟨g', hmatch'⟩ := Option.isSome_iff_exists.1 hfind
  exact ⟨g', hmatch', agreeOn_of_matcher hfg
    (fun key hkey => hnot key (captureNames_subset_usedNames _ hkey)) hmatch hmatch'⟩

/-- Parts of a tree one after another. -/
theorem exists_pairwise_of_linesUp {K : String → Prop} (hps : ∀ p ∈ ps, AllowsAnyOrder p)
    (hapart : ps.Pairwise (Apart variableNames)) (hcovers : ∀ p ∈ ps, Covers variableNames p K)
    (hlines : ∀ x ∈ ps.zip ts, LinesUp x.1 x.2) (hfg : f.AgreeOn K g)
    (hf : ∀ p ∈ ps, p.IsFree variableNames f) (hg : ∀ p ∈ ps, p.IsFree variableNames g)
    (hmatch : pairwise (ps.map (matcher false)) ts f = some f') :
    ∃ g', pairwise (ps.map (matcher true)) ts g = some g' ∧ f'.AgreeOn K g' := by
  refine Carries.pairwise hps hapart hcovers rfl (fun x hx => ?_) hfg hf hg hmatch
  have hself : ts.zip ts = ts.map fun t => (t, t) := List.zipWith_self
  rw [hself, List.zip_map_right] at hx
  obtain ⟨y, hy, rfl⟩ := List.mem_map.1 hx
  exact ⟨rfl, hlines y hy⟩

theorem allowsAnyOrder_allOf (hps : ∀ p ∈ ps, AllowsAnyOrder p) (hapart : ps.Pairwise (Apart variableNames)) :
    AllowsAnyOrder (allOf ps) := by
  rintro K t _ f g f' hcovers ⟨rfl, hlines⟩ hfg hf hg hmatch
  have hloose : (allOf ps).variableNames = ps.flatMap variableNames := variableNamesOf_eq_flatMap ps
  have hlines := linesUp_of_allOf hlines hmatch
  rw [matcher_allOf] at hmatch ⊢
  refine exists_pairwise_of_linesUp hps hapart (fun p hp => hcovers.of_mem_joint hloose hapart hp)
    (fun x hx => ?_) hfg (fun p hp => hf.of_mem_joint hloose hp) (fun p hp => hg.of_mem_joint hloose hp) hmatch
  obtain ⟨hp, ht⟩ := List.of_mem_zip hx
  obtain ⟨-, -, ht⟩ := List.mem_map.1 ht
  exact ht ▸ hlines x.1 hp

theorem allowsAnyOrder_node_of_none (hany : anyOrder? true h ps = none) (hps : ∀ p ∈ ps, AllowsAnyOrder p)
    (hapart : ps.Pairwise (Apart variableNames)) : AllowsAnyOrder (node h ps) := by
  rintro K t _ f g f' hcovers ⟨rfl, hlines⟩ hfg hf hg hmatch
  have hloose := variableNames_node h ps
  obtain ⟨k, ts, rfl, hfits, hpairwise⟩ := matcher_node_inOrder hmatch
  rw [matcher_node_pairwise hany, if_pos hfits]
  rw [← joint_node_of_none hany] at hapart
  have hmem {p : Pattern} (hp : p ∈ ps) : p ∈ (node h ps).joint := by rwa [joint_node_of_none hany]
  exact exists_pairwise_of_linesUp hps (joint_node_of_none hany ▸ hapart)
    (fun p hp => hcovers.of_mem_joint hloose hapart (hmem hp)) (linesUp_of_node hlines hmatch).1 hfg
    (fun p hp => hf.of_mem_joint hloose (hmem hp)) (fun p hp => hg.of_mem_joint hloose (hmem hp)) hpairwise

/-- The operands that are left are one or several operands of the tree. -/
theorem exists_absorb (symbol : String) {r : Pattern} {v : Tree} {K : String → Prop} (hrest : rest? qs = some r)
    (hK : ∀ key ∈ r.usedNames, ¬K key) (hfree : ∀ key ∈ r.usedNames, g.find? key = none)
    (hfg : f.AgreeOn K g) (hmatch : matcher false r v f = some f') :
    ∃ g', absorb symbol (rest? qs) (v.operandsOf symbol) g = some g' ∧ f'.AgreeOn K g' := by
  obtain ⟨w, hw⟩ : ∃ w, Tree.chain? symbol (v.operandsOf symbol) = some w := by
    cases hoperands : v.operandsOf symbol with
    | nil => exact absurd hoperands (Tree.operandsOf_ne_nil symbol v)
    | cons u us => exact ⟨_, rfl⟩
  have hfind : ∃ g', matcher true r w g = some g' := by
    rcases takesRest_of_rest? hrest with rfl | ⟨key, rfl⟩
    · exact ⟨g, rfl⟩
    · exact ⟨_, Captures.bind_of_find?_eq_none (hfree key List.mem_cons_self)⟩
  obtain ⟨g', hg'⟩ := hfind
  refine ⟨g', ?_, agreeOn_of_matcher hfg (fun key hkey => hK key (captureNames_subset_usedNames r hkey)) hmatch hg'⟩
  rw [hrest]
  exact Option.bind_eq_some_iff.2 ⟨w, hw, hg'⟩

/-- The operands of a chain, in the order in which they stand. -/
theorem exists_assign_of_linesUp {K : String → Prop} (hqs : ∀ q ∈ qs, AllowsAnyOrder q)
    (hapart : qs.Pairwise (Apart variableNames)) (hcovers : ∀ q ∈ qs, Covers variableNames q K)
    (hlines : ∀ x ∈ qs.zip us, LinesUp x.1 x.2) (hfg : f.AgreeOn K g)
    (hf : ∀ q ∈ qs, q.IsFree variableNames f) (hg : ∀ q ∈ qs, q.IsFree variableNames g)
    (hmatch : pairwise (qs.map (matcher false)) us f = some f') :
    ∃ g', assign (absorb symbol (rest? qs)) ((single qs).map (matcher true)) (unrolled symbol qs us) g =
      some g' ∧ f'.AgreeOn K g' := by
  cases hrest : rest? qs with
  | none =>
      obtain ⟨g', hmatch', hfg'⟩ := exists_pairwise_of_linesUp hqs hapart hcovers hlines hfg hf hg hmatch
      refine ⟨g', ?_, hfg'⟩
      rw [single, unrolled, hrest, if_neg (by simp), if_neg (by simp), ← List.append_nil us]
      exact assign_of_pairwise hmatch' rfl
  | some r =>
      have hsplit : single qs ++ [r] = qs := by
        have happend := single_append_rest? qs
        rwa [hrest] at happend
      rw [← hsplit] at hqs hapart hcovers hlines hf hg hmatch
      rw [List.map_append, pairwise_append_iff] at hmatch
      obtain ⟨ts, vs, f₁, rfl, hmatch, hlast⟩ := hmatch
      obtain ⟨v, rfl⟩ := List.length_eq_one_iff.1 (length_eq_of_pairwise hlast).symm
      obtain ⟨f₂, hlast, hend⟩ := Option.bind_eq_some_iff.1 hlast
      cases hend
      rw [List.zip_append (by simpa using length_eq_of_pairwise hmatch)] at hlines
      obtain ⟨hapart, -, hrestapart⟩ := List.pairwise_append.1 hapart
      obtain ⟨hgsingle, hgrest⟩ := List.forall_mem_append.1 hg
      obtain ⟨g₁, hmatch', hfg₁⟩ := exists_pairwise_of_linesUp (List.forall_mem_append.1 hqs).1 hapart
        (List.forall_mem_append.1 hcovers).1 (List.forall_mem_append.1 hlines).1 hfg
        (List.forall_mem_append.1 hf).1 hgsingle hmatch
      -- The names for the rest are variable, and no other operand uses them.
      have hr : r ∈ [r] := List.mem_singleton_self r
      have hvariable : r.usedNames ⊆ r.variableNames := by
        rcases takesRest_of_rest? hrest with rfl | ⟨key, rfl⟩ <;> exact List.Subset.refl _
      have hfree : ∀ key ∈ r.usedNames, g₁.find? key = none := by
        intro key hkey
        rw [find?_of_pairwise (fun hcapture => ?_) hmatch']
        · exact hgrest r hr key (hvariable hkey)
        · obtain ⟨q, hq, hcapture⟩ := mem_captureNamesOf.1 hcapture
          exact (hrestapart q hq r hr).2 key (hvariable hkey) (captureNames_subset_usedNames q hcapture)
      have hnot : ∀ key ∈ r.usedNames, ¬K key := fun key hkey hK =>
        ((List.forall_mem_append.1 hcovers).2 r hr key hkey).1 hK (hvariable hkey)
      obtain ⟨g', hfinish, hfg'⟩ := exists_absorb symbol hrest hnot hfree hfg₁ hlast
      refine ⟨g', ?_, hfg'⟩
      have hunrolled : unrolled symbol qs (ts ++ [v]) = ts ++ v.operandsOf symbol := by
        simp [unrolled, hrest]
      rw [hunrolled, ← hrest]
      exact assign_of_pairwise hmatch' hfinish

theorem allowsAnyOrder_node_of_some (hany : anyOrder? true h ps = some symbol)
    (hqs : ∀ q ∈ ps.flatMap (operandsOf symbol), AllowsAnyOrder q)
    (hapart : (ps.flatMap (operandsOf symbol)).Pairwise (Apart variableNames)) : AllowsAnyOrder (node h ps) := by
  rintro K t _ f g f' hcovers ⟨rfl, hlines⟩ hfg hf hg hmatch
  have hloose := variableNames_node h ps
  rw [← operandsOf_node hany] at hqs
  have hjoint : (node h ps).joint = (node h ps).operandsOf symbol := by
    rw [joint_node_of_some hany, operandsOf_node hany]
  rw [← operandsOf_node hany, ← hjoint] at hapart
  have hpairwise := pairwise_operandsAlong symbol hmatch
  have hlinesq := linesUp_operandsAlong symbol hlines hmatch
  obtain ⟨k, ts, rfl, hfits, -⟩ := matcher_node_inOrder hmatch
  rw [matcher_node_anyOrder hany, if_pos hfits, anyOrder_eq_assign, (linesUp_of_node hlines hmatch).2 symbol hany,
    ← operandsOf_node hany]
  rw [← hjoint] at hpairwise hlinesq hqs ⊢
  exact exists_assign_of_linesUp hqs hapart (fun q hq => hcovers.of_mem_joint hloose hapart hq) hlinesq hfg
    (fun q hq => hf.of_mem_joint hloose hq) (fun q hq => hg.of_mem_joint hloose hq) hpairwise

/-- Whether a pattern excludes another. -/
def isExcluding : Pattern → Bool
  | excluding _ => true
  | _ => false

/-- What a pattern matches in order, it also matches in any order, as long as it excludes nothing and no variable
name ties two parts together that have to match together. -/
theorem KeepsApart.allowsAnyOrder (hnot : ∀ q ∈ p.parts false, q.isExcluding = false)
    (hp : p.KeepsApart variableNames false) : AllowsAnyOrder p := by
  have hjoint {p q : Pattern} (hnot : ∀ r ∈ p.parts false, r.isExcluding = false) (hq : q ∈ p.joint) :
      ∀ r ∈ q.parts false, r.isExcluding = false := fun r hr => hnot r (mem_parts_of_mem_joint hq hr)
  induction p using ind with
  | anything | anyMore =>
      rintro K t _ f g f' _ ⟨rfl, -⟩ hfg _ _ hmatch
      cases hmatch
      exact ⟨g, rfl, hfg⟩
  | capture p key ih =>
      refine allowsAnyOrder_capture hp.splitsNames (ih ?_ (hp.mono (List.subset_cons_self _ _)))
      exact fun q hq => hnot q (List.mem_cons_of_mem _ hq)
  | ofKind kind =>
      rintro K t _ f g f' _ ⟨rfl, -⟩ hfg _ _ hmatch
      rw [matcher] at hmatch
      split_ifs at hmatch with hkind
      cases hmatch
      exact ⟨g, if_pos hkind, hfg⟩
  | anyOf ps ih =>
      refine allowsAnyOrder_anyOf fun p hmem => ih p hmem (fun q hq => hnot q ?_) (hp.of_anyOf hmem)
      exact List.mem_cons_of_mem _ (mem_partsOf.2 ⟨p, hmem, hq⟩)
  | allOf ps ih =>
      exact allowsAnyOrder_allOf (fun p hmem => ih p hmem (hjoint hnot hmem) (hp.of_mem_joint hmem)) hp.splitsNames
  | excluding p _ => cases hnot _ (mem_parts_self _)
  | commuting p _ =>
      rintro K t _ f g f' hcovers ⟨rfl, -⟩ hfg _ _ hmatch
      have hused : ∀ key ∈ (commuting p).usedNames, K key := fun key hkey =>
        (hcovers key hkey).2 List.not_mem_nil
      have hrel : Option.Rel (AgreeOn K) (matcher true p t f) (matcher true p t g) :=
        agreeOn_matcher p hused t f g hfg
      have hmatch : matcher true p t f = some f' := hmatch
      exact exists_of_optionRel (hmatch ▸ hrel)
  | literal v =>
      rintro K t _ f g f' _ ⟨rfl, -⟩ hfg _ _ hmatch
      cases t with
      | leaf w =>
          rw [matcher] at hmatch
          split_ifs at hmatch with heq
          cases hmatch
          exact ⟨g, if_pos heq, hfg⟩
      | node k ts => cases hmatch
  | node h ps ih ihoperands =>
      cases hany : anyOrder? true h ps with
      | none =>
          have hmem {p : Pattern} (hp : p ∈ ps) : p ∈ (node h ps).joint := by rwa [joint_node_of_none hany]
          refine allowsAnyOrder_node_of_none hany (fun p hp' => ?_) (joint_node_of_none hany ▸ hp.splitsNames)
          exact ih p hp' (hjoint hnot (hmem hp')) (hp.of_mem_joint (hmem hp'))
      | some symbol =>
          have hmem {q : Pattern} (hq : q ∈ ps.flatMap (operandsOf symbol)) : q ∈ (node h ps).joint := by
            rwa [joint_node_of_some hany]
          refine allowsAnyOrder_node_of_some hany (fun q hq => ?_) (joint_node_of_some hany ▸ hp.splitsNames)
          exact ihoperands symbol q hq (hjoint hnot (hmem hq)) (hp.of_mem_joint (hmem hq))

/-- **Any order allows for more.** Where the operands line up and no variable name ties two parts together that have
to match together, a match in order is also found in any order. -/
theorem isSome_find_of_inOrder (hnot : ∀ q ∈ p.parts false, q.isExcluding = false)
    (hp : p.KeepsApart variableNames false) (hlines : LinesUp p t) (hfind : (p.find t false).isSome = true) :
    (p.find t true).isSome = true := by
  obtain ⟨found, hfound⟩ := Option.isSome_iff_exists.1 hfind
  obtain ⟨found', hfound', -⟩ := (KeepsApart.allowsAnyOrder hnot hp) (K := (· ∉ p.variableNames))
    (fun _ _ => Iff.rfl) ⟨rfl, hlines⟩ (.refl .empty) (fun _ _ => rfl) (fun _ _ => rfl) hfound
  exact Option.isSome_of_eq_some hfound'

theorem linesUp_binary (hp : LinesUp p t) (hq : LinesUp q u)
    (hoperands : (Tree.binary symbol t u).operandsOf symbol =
      unrolled symbol ((binary symbol p q).operandsOf symbol)
        (operandsAlong symbol (binary symbol p q) (.binary symbol t u))) :
    LinesUp (binary symbol p q) (.binary symbol t u) := by
  refine .node (List.forall_mem_cons.2 ⟨hp, List.forall_mem_singleton.2 hq⟩) fun s hany => ?_
  obtain ⟨o, _, _, -, heq, -, rfl, -⟩ := exists_of_anyOrder? hany
  cases heq
  rw [← operandsOf_node hany]
  exact hoperands

/-- `?;a + (m_any(c, ?;b) + ??;r)` and `sin(x) + (y + (z + c))` -/
theorem isSome_find_of_inOrder_sum :
    let name (s : String) : Tree := .leaf (.name s [])
    let p : Pattern := binary "+" (capture anything "a")
      (binary "+" (anyOf [literal (.name "c" []), capture anything "b"]) (capture anyMore "r"))
    let t : Tree := .binary "+" (.node (.call "sin") [name "x"])
      (.binary "+" (name "y") (.binary "+" (name "z") (name "c")))
    (∀ q ∈ p.parts false, q.isExcluding = false) ∧ p.KeepsApart variableNames false ∧ LinesUp p t ∧
      (p.find t false).isSome = true ∧ (p.find t true).isSome = true := by
  intro name p t
  have hnot : ∀ q ∈ p.parts false, q.isExcluding = false := by decide +kernel
  have hp : p.KeepsApart variableNames false := by decide +kernel
  have hfind : (p.find t false).isSome = true := by decide +kernel
  have hlines : LinesUp p t := by
    refine linesUp_binary (.chainless (by decide)) (linesUp_binary ?_ (.chainless (by decide)) rfl) rfl
    exact .chainless (by decide)
  exact ⟨hnot, hp, hlines, hfind, isSome_find_of_inOrder hnot hp hlines hfind⟩

/-- In any order, `?;a + ?;b` does not match `x + y + z`, which has three operands. Nor does
`m_any(c + ?;a, ? + ?;a) * ?;a` match `(x + c) * c`, for the first alternative takes `x`, or `f(x + ??;r, ?;r)`
`f(x + (a + (b + c)), a + (b + c))`, for what is left is grouped from the left. -/
theorem not_isSome_find_of_inOrder :
    let name (s : String) : Tree := .leaf (.name s [])
    let value (s : String) : Pattern := literal (.name s [])
    let any (key : String) : Pattern := capture anything key
    (let p : Pattern := binary "+" (any "a") (any "b")
     let t : Tree := .binary "+" (.binary "+" (name "x") (name "y")) (name "z")
     (p.find t false).isSome = true ∧ (p.find t true).isSome = false) ∧
    (let p : Pattern := binary "*"
       (anyOf [binary "+" (value "c") (any "a"), binary "+" anything (any "a")]) (any "a")
     let t : Tree := .binary "*" (.binary "+" (name "x") (name "c")) (name "c")
     LinesUp p t ∧ (p.find t false).isSome = true ∧ (p.find t true).isSome = false) ∧
    (let p : Pattern := node (.call "f") [binary "+" (value "x") (capture anyMore "r"), any "r"]
     let sum : Tree := .binary "+" (name "a") (.binary "+" (name "b") (name "c"))
     let t : Tree := .node (.call "f") [.binary "+" (name "x") sum, sum]
     LinesUp p t ∧ (p.find t false).isSome = true ∧ (p.find t true).isSome = false) := by
  intro name value any
  have hsingle (key : String) (t : Tree) : LinesUp (any key) t :=
    .chainless (by simp [any, parts, isChain])
  have hsum : LinesUp (anyOf [binary "+" (value "c") (any "a"), binary "+" anything (any "a")])
      (.binary "+" (name "x") (name "c")) := by
    refine .anyOf (List.forall_mem_cons.2 ⟨?_, List.forall_mem_singleton.2 ?_⟩)
    · exact linesUp_binary (.chainless (by decide)) (hsingle "a" _) rfl
    · exact linesUp_binary (.chainless (by decide)) (hsingle "a" _) rfl
  refine ⟨by decide +kernel, ⟨linesUp_binary hsum (hsingle "a" _) rfl, by decide +kernel⟩, ?_, by decide +kernel⟩
  refine .node (List.forall_mem_cons.2 ⟨?_, List.forall_mem_singleton.2 (hsingle "r" _)⟩) fun _ hany => ?_
  · exact linesUp_binary (.chainless (by decide)) (.chainless (by decide)) rfl
  · cases hany

end MathExpr.Pattern
