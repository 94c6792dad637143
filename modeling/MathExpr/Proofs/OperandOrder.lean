import MathExpr.Proofs.LowerCase
import MathExpr.Proofs.NamesApart
import MathExpr.Proofs.Rearrangement

/-!
# Matching rearranged sums and products

Where operands may stand in any order, a pattern matches a tree if and only if it matches its
rearrangements, as long as no name ties choices together (`Pattern.isSome_find_of_rearranged`). Names
are movable that a pattern uses among the operands of a commutative operator, or under which it may
capture more than single values (`Pattern.movableNames`); of the parts that have to match together no
two may use a name that is movable in one of them.

This cannot be done without (`Pattern.not_isSome_find_of_rearranged`). What is captured twice has to be
equal, not only rearranged; and each operand commits to the first way in which it matches.
-/

namespace MathExpr

open Captures (AgreeOn)
open MathExpr.Tree (Rearranged SameUpToOrder)

namespace Pattern

/-! ### Movable names -/

mutual

/-- Whether a pattern only matches values. -/
def takesLeaves : Pattern → Bool
  | ofKind kind => !(["op", "function", "list"].contains kind)
  | literal _ => true
  | capture p _ | commuting p => takesLeaves p
  | anyOf ps => (takesLeavesOf ps).all id
  | allOf ps => (takesLeavesOf ps).any id
  | _ => false

/-- Which of the patterns of a list only match values. -/
def takesLeavesOf : List Pattern → List Bool
  | [] => []
  | p :: ps => takesLeaves p :: takesLeavesOf ps

end

mutual

/-- The names that a pattern uses among the operands of commutative operators, or under which it may capture
more than single values. -/
def movableNames : Pattern → List String
  | capture p key => if takesLeaves p then movableNames p else key :: movableNames p
  | anyOf ps | allOf ps => movableNamesOf ps
  | excluding p | commuting p => movableNames p
  | node h ps => if (anyOrder? true h ps).isSome then usedNamesOf ps else movableNamesOf ps
  | _ => []

/-- The movable names of the patterns of a list. -/
def movableNamesOf : List Pattern → List String
  | [] => []
  | p :: ps => movableNames p ++ movableNamesOf ps

end

variable {p q : Pattern} {ps qs : List Pattern} {t u : Tree} {f g f' : Captures} {symbol : String}

theorem takesLeavesOf_eq_map (ps : List Pattern) : takesLeavesOf ps = ps.map takesLeaves := by
  induction ps with
  | nil => rfl
  | cons p ps ih => rw [takesLeavesOf, List.map_cons, ih]

theorem movableNamesOf_eq_flatMap (ps : List Pattern) : movableNamesOf ps = ps.flatMap movableNames := by
  induction ps with
  | nil => rfl
  | cons p ps ih => rw [movableNamesOf, List.flatMap_cons, ih]

theorem movableNames_subset_usedNames (p : Pattern) : p.movableNames ⊆ p.usedNames := by
  have hlist {ps : List Pattern} (ih : ∀ p ∈ ps, p.movableNames ⊆ p.usedNames) :
      movableNamesOf ps ⊆ usedNamesOf ps := by
    rw [movableNamesOf_eq_flatMap]
    intro key hkey
    obtain ⟨p, hp, hkey⟩ := List.mem_flatMap.1 hkey
    exact mem_usedNamesOf.2 ⟨p, hp, ih p hp hkey⟩
  induction p using ind with
  | capture p key ih =>
      rw [movableNames, usedNames]
      split
      · exact List.subset_cons_of_subset key ih
      · exact List.cons_subset_cons key ih
  | anyOf ps ih | allOf ps ih => exact hlist ih
  | excluding p ih | commuting p ih => exact ih
  | node h ps ih _ =>
      rw [movableNames, usedNames]
      split
      · exact List.Subset.refl _
      · exact hlist ih
  | _ => exact List.nil_subset _

/-- Where patterns all have to match, each of them does. -/
theorem exists_of_matcher_allOf {commute : Bool} (hmatch : matcher commute (.allOf ps) t f = some f')
    (hp : p ∈ ps) : ∃ f₁ f₂, matcher commute p t f₁ = some f₂ := by
  rw [matcher_allOf] at hmatch
  induction ps generalizing f with
  | nil => cases hp
  | cons q ps ih =>
      obtain ⟨f₁, hfirst, hrest⟩ := Option.bind_eq_some_iff.1 hmatch
      rcases List.mem_cons.1 hp with rfl | hp
      · exact ⟨f, f₁, hfirst⟩
      · exact ih hrest hp

theorem exists_leaf_of_takesLeaves (hp : p.takesLeaves = true) (hmatch : matcher true p t f = some f') :
    ∃ v, t = .leaf v := by
  induction p using ind generalizing f f' with
  | ofKind kind =>
      rw [matcher] at hmatch
      split_ifs at hmatch with hkind
      cases t with
      | leaf v => exact ⟨v, rfl⟩
      | node h ts =>
          subst hkind
          cases h <;> simp [takesLeaves, Tree.kind, Head.kind] at hp
  | literal v =>
      cases t with
      | leaf w => exact ⟨w, rfl⟩
      | node h ts => cases hmatch
  | capture p key ih =>
      obtain ⟨f₁, hfirst, -⟩ := Option.bind_eq_some_iff.1 hmatch
      exact ih hp hfirst
  | commuting p ih => exact ih hp hmatch
  | anyOf ps ih =>
      rw [takesLeaves, takesLeavesOf_eq_map, List.all_map, List.all_eq_true] at hp
      rw [matcher_anyOf] at hmatch
      obtain ⟨p, hmem, hmatch⟩ := List.exists_of_findSome?_eq_some hmatch
      exact ih p hmem (hp p hmem) hmatch
  | allOf ps ih =>
      rw [takesLeaves, takesLeavesOf_eq_map, List.any_map, List.any_eq_true] at hp
      obtain ⟨p, hmem, hp⟩ := hp
      obtain ⟨f₁, f₂, hmatch⟩ := exists_of_matcher_allOf hmatch hmem
      exact ih p hmem hp hmatch
  | _ => cases hp

/-! ### Operands in another order -/

/-- What a pattern does with a tree, it does with its rearrangements. -/
abbrev KeepsOrder (p : Pattern) : Prop := Carries movableNames true (fun _ => Rearranged) p

theorem exists_takes_of_sameUpToOrder {K : String → Prop} {ts us left : List Tree}
    (hqs : ∀ q ∈ qs, KeepsOrder q) (hapart : qs.Pairwise (Apart movableNames))
    (hcovers : ∀ q ∈ qs, Covers movableNames q K) (hf : ∀ q ∈ qs, q.IsFree movableNames f)
    (hg : ∀ q ∈ qs, q.IsFree movableNames g) (hfg : f.AgreeOn K g) (hsame : SameUpToOrder ts us)
    (htakes : Takes (qs.map (matcher true)) ts f left f') :
    ∃ left' g', Takes (qs.map (matcher true)) us g left' g' ∧ SameUpToOrder left left' := by
  induction qs generalizing ts us f g with
  | nil =>
      cases htakes
      exact ⟨us, g, .nil, hsame⟩
  | cons q qs ih =>
      rw [List.map_cons] at htakes
      cases htakes with
      | cons hfirst hrest =>
          -- The counterpart of the operand is taken, and the others still are the same up to their order.
          obtain ⟨before, u, after, rfl, htu, hsame⟩ := hsame.exists_of_append_cons
          obtain ⟨hapart, hapartrest⟩ := List.pairwise_cons.1 hapart
          obtain ⟨hq, hqs⟩ := List.forall_mem_cons.1 hqs
          obtain ⟨hcoverq, hcovers⟩ := List.forall_mem_cons.1 hcovers
          obtain ⟨hfq, hf⟩ := List.forall_mem_cons.1 hf
          obtain ⟨hgq, hg⟩ := List.forall_mem_cons.1 hg
          obtain ⟨g₁, hfirst', hfg₁⟩ := hq hcoverq htu hfg hfq hgq hfirst
          obtain ⟨left', g', htakes, hleft⟩ := ih hqs hapartrest hcovers
            (fun r hr => (hf r hr).of_matcher (hapart r hr) hfirst)
            (fun r hr => (hg r hr).of_matcher (hapart r hr) hfirst') hfg₁ hsame hrest
          exact ⟨left', g', .cons hfirst' htakes, hleft⟩

/-- Operands that are left are matched in any order. -/
theorem isSome_absorb {left left' : List Tree} (hsame : SameUpToOrder left left')
    (hfree : ∀ q ∈ rest? qs, q.IsFree movableNames g) (h : (absorb symbol (rest? qs) left f).isSome = true) :
    (absorb symbol (rest? qs) left' g).isSome = true := by
  unfold absorb at h ⊢
  split at h
  · rename_i q hq
    obtain ⟨f', hf'⟩ := Option.isSome_iff_exists.1 h
    obtain ⟨t, ht, -⟩ := Option.bind_eq_some_iff.1 hf'
    have hchain := hsame.isSome_chain? symbol
    rw [ht, eq_comm, Option.isSome_some, Option.isSome_iff_exists] at hchain
    obtain ⟨u, hu⟩ := hchain
    rw [hu, Option.bind_some]
    rcases takesRest_of_rest? hq with rfl | ⟨key, rfl⟩
    · rfl
    · have hfresh : g.find? key = none := hfree _ hq key List.mem_cons_self
      rw [matcher, matcher, Option.bind_some, Captures.bind_of_find?_eq_none hfresh]
      rfl
  · cases left with
    | nil =>
        rw [List.eq_nil_of_length_eq_zero hsame.length_eq.symm]
        rfl
    | cons t ts => cases h

/-- A chain is found in a rearranged tree where it is found in the tree. -/
theorem isSome_anyOrder_of_rearranged {K : String → Prop} (hqs : ∀ q ∈ qs, KeepsOrder q)
    (hapart : qs.Pairwise (Apart movableNames)) (hcovers : ∀ q ∈ qs, Covers movableNames q K)
    (hf : ∀ q ∈ qs, q.IsFree movableNames f) (hg : ∀ q ∈ qs, q.IsFree movableNames g)
    (hfg : f.AgreeOn K g) (htu : Rearranged t u)
    (h : (anyOrder symbol (qs.map toOperand) t f).isSome = true) :
    (anyOrder symbol (qs.map toOperand) u g).isSome = true := by
  rw [anyOrder_eq_assign, isSome_assign_iff] at h ⊢
  rw [← single_append_rest? qs] at hqs hapart hcovers hf hg
  obtain ⟨left, f', htakes, hfinish⟩ := h
  obtain ⟨hapart, -, hrest⟩ := List.pairwise_append.1 hapart
  obtain ⟨hgsingle, hgrest⟩ := List.forall_mem_append.1 hg
  obtain ⟨left', g', htakes', hleft⟩ := exists_takes_of_sameUpToOrder (List.forall_mem_append.1 hqs).1 hapart
    (List.forall_mem_append.1 hcovers).1 (List.forall_mem_append.1 hf).1 hgsingle hfg
    (htu.operandsOf symbol) htakes
  refine ⟨left', g', htakes', isSome_absorb hleft (fun q hq => ?_) hfinish⟩
  have hmem : q ∈ (rest? qs).toList := Option.mem_toList.2 hq
  exact (hgrest q hmem).of_takes (fun p hp => hrest p hp q hmem) htakes'

/-! ### Parts -/

theorem movableNames_subset_capture (p : Pattern) (key : String) :
    p.movableNames ⊆ (capture p key).movableNames := by
  rw [movableNames]
  split
  · exact List.Subset.refl _
  · exact List.subset_cons_self key _

theorem covers_of_capture {key : String} {K : String → Prop}
    (hsplits : (capture p key).SplitsNames movableNames) (hcovers : Covers movableNames (capture p key) K) :
    Covers movableNames p K := by
  intro k hk
  rw [hcovers k (List.mem_cons_of_mem key hk), not_iff_not]
  refine ⟨fun hmem => ?_, fun hmem => movableNames_subset_capture p key hmem⟩
  by_cases heq : k = key
  · subst heq
    exact absurd hk (hsplits hmem)
  · rw [movableNames] at hmem
    split at hmem
    · exact hmem
    · exact (List.mem_cons.1 hmem).resolve_left heq

theorem keepsOrder_capture {key : String} (hsplits : (capture p key).SplitsNames movableNames)
    (hp : KeepsOrder p) : KeepsOrder (capture p key) := by
  intro K t u f g f' hcovers htu hfg hf hg hmatch
  have hsubset := movableNames_subset_capture p key
  obtain ⟨f₁, hfirst, hbind⟩ := Option.bind_eq_some_iff.1 hmatch
  obtain ⟨g₁, hfirst', hfg₁⟩ := hp (covers_of_capture hsplits hcovers) htu hfg
    (fun k hk => hf k (hsubset hk)) (fun k hk => hg k (hsubset hk)) hfirst
  rw [matcher, hfirst', Option.bind_some]
  cases htakes : p.takesLeaves with
  | true =>
      -- What is captured is the same value, so that it does not matter what has been captured before.
      obtain ⟨v, rfl⟩ := exists_leaf_of_takesLeaves htakes hfirst
      obtain rfl : u = .leaf v := by cases htu.sameShape; rfl
      have hmem : (capture p key).movableNames = p.movableNames := by rw [movableNames, if_pos htakes]
      have hkey : K key := by
        refine (hcovers key List.mem_cons_self).2 fun hkey => hsplits hkey ?_
        exact movableNames_subset_usedNames p (hmem ▸ hkey)
      exact exists_of_optionRel (hbind ▸ hfg₁.bind hkey)
  | false =>
      -- What is captured may differ, but nothing has been captured under the name.
      have hkey : key ∈ (capture p key).movableNames := by
        rw [movableNames, if_neg (by simp [htakes])]
        exact List.mem_cons_self
      have hnot : key ∉ p.captureNames := fun hcapture =>
        hsplits hkey (captureNames_subset_usedNames p hcapture)
      have hfresh : g₁.find? key = none := by rw [find?_of_matcher hnot hfirst', hg key hkey]
      exact hfg₁.exists_bind_of_not (fun hK => (hcovers key List.mem_cons_self).1 hK hkey) hfresh hbind

/-- Whether a pattern matches does not change, either. -/
theorem KeepsOrder.rel (hp : KeepsOrder p) {K : String → Prop} (hK : ∀ key ∈ p.movableNames, ¬K key)
    (htu : Rearranged t u) (hfg : f.AgreeOn K g) (hf : ∀ key ∈ p.usedNames, ¬K key → f.find? key = none)
    (hg : ∀ key ∈ p.usedNames, ¬K key → g.find? key = none) :
    Option.Rel (AgreeOn K) (matcher true p t f) (matcher true p u g) := by
  have hloose := movableNames_subset_usedNames p
  cases hmatch : matcher true p t f with
  | some f' =>
      obtain ⟨g', hmatch', hfg'⟩ := hp.weaken hloose hK htu hfg hf hg hmatch
      rw [hmatch']
      exact .some hfg'
  | none =>
      cases hmatch' : matcher true p u g with
      | none => exact .none
      | some g' =>
          obtain ⟨f', hmatch'', -⟩ := hp.weaken hloose hK (.symm _ _ htu) hfg.symm hg hf hmatch'
          rw [hmatch] at hmatch''
          cases hmatch''

theorem keepsOrder_anyOf (hps : ∀ p ∈ ps, KeepsOrder p) : KeepsOrder (anyOf ps) := by
  intro K t u f g f' hcovers htu hfg hf hg hmatch
  have hfresh {h : Captures} (hfree : (anyOf ps).IsFree movableNames h) {p : Pattern} (hp : p ∈ ps) :
      ∀ key ∈ p.usedNames, ¬K key → h.find? key = none := by
    intro key hkey hnot
    refine hfree key (not_not.1 fun hmovable => hnot ((hcovers key ?_).2 hmovable))
    exact mem_usedNamesOf.2 ⟨p, hp, hkey⟩
  have hnot {p : Pattern} (hp : p ∈ ps) : ∀ key ∈ p.movableNames, ¬K key := by
    intro key hkey hK
    refine (hcovers key (mem_usedNamesOf.2 ⟨p, hp, movableNames_subset_usedNames p hkey⟩)).1 hK ?_
    rw [movableNames, movableNamesOf_eq_flatMap]
    exact List.mem_flatMap.2 ⟨p, hp, hkey⟩
  -- One by one the alternatives match both trees or none, so that the same one is the first.
  have hrel := optionRel_findSome? fun p hp =>
    (hps p hp).rel (hnot hp) htu hfg (hfresh hf hp) (hfresh hg hp)
  rw [← matcher_anyOf, ← matcher_anyOf, hmatch] at hrel
  exact exists_of_optionRel hrel

theorem keepsOrder_excluding (hp : KeepsOrder p) : KeepsOrder (excluding p) := by
  intro K t u f g f' hcovers htu hfg hf hg hmatch
  have hfresh {h : Captures} (hfree : (excluding p).IsFree movableNames h) :
      ∀ key ∈ p.usedNames, ¬K key → h.find? key = none := fun key hkey hnot =>
    hfree key (not_not.1 fun hmovable => hnot ((hcovers key hkey).2 hmovable))
  have hrel := hp.rel (fun key hkey hK => (hcovers key (movableNames_subset_usedNames p hkey)).1 hK hkey) htu
    hfg (hfresh hf) (hfresh hg)
  rw [matcher] at hmatch ⊢
  rw [isNone_eq_of_optionRel hrel] at hmatch
  split_ifs at hmatch with hnone
  cases hmatch
  exact ⟨g, if_pos hnone, hfg⟩

/-- Parts of a tree that stay where they are. -/
theorem exists_pairwise_of_rearranged {K : String → Prop} {ts us : List Tree}
    (hps : ∀ p ∈ ps, KeepsOrder p) (hapart : ps.Pairwise (Apart movableNames))
    (hcovers : ∀ p ∈ ps, Covers movableNames p K) (htu : List.Forall₂ Rearranged ts us) (hfg : f.AgreeOn K g)
    (hf : ∀ p ∈ ps, p.IsFree movableNames f) (hg : ∀ p ∈ ps, p.IsFree movableNames g)
    (hmatch : pairwise (ps.map (matcher true)) ts f = some f') :
    ∃ g', pairwise (ps.map (matcher true)) us g = some g' ∧ f'.AgreeOn K g' := by
  obtain ⟨hlength, hzip⟩ := List.forall₂_iff_zip.1 htu
  exact Carries.pairwise hps hapart hcovers hlength (fun x hx => hzip (List.of_mem_zip hx).2) hfg hf hg hmatch

theorem keepsOrder_allOf (hps : ∀ p ∈ ps, KeepsOrder p) (hapart : ps.Pairwise (Apart movableNames)) :
    KeepsOrder (allOf ps) := by
  intro K t u f g f' hcovers htu hfg hf hg hmatch
  have hloose : (allOf ps).movableNames = ps.flatMap movableNames := movableNamesOf_eq_flatMap ps
  rw [matcher_allOf] at hmatch ⊢
  refine exists_pairwise_of_rearranged hps hapart (fun p hp => hcovers.of_mem_joint hloose hapart hp) ?_ hfg
    (fun p hp => hf.of_mem_joint hloose hp) (fun p hp => hg.of_mem_joint hloose hp) hmatch
  exact List.forall₂_map_left_iff.2 (List.forall₂_map_right_iff.2 (List.forall₂_same.2 fun _ _ => htu))

/-! ### Nodes -/

/-- Signs of sums and products have one spelling. -/
theorem symbol_eq_of_lower_eq {s s' : String} (hs' : Tree.isSumOrProduct s')
    (h : Text.lower s = Text.lower s') : s = s' := by
  rcases hs' with rfl | rfl
  · exact Text.eq_of_lower_eq (by simp) (h.trans (by decide +kernel))
  · exact Text.eq_of_lower_eq (by simp) (h.trans (by decide +kernel))

/-- Where a pattern keeps to the order of the operands, it does not match a sum or product of two. -/
theorem keepsArguments_of_headFits {h k : Head} {ts : List Tree} (hany : anyOrder? true h ps = none)
    (hfits : headFits h k = true) (hlength : ps.length = ts.length) : Tree.KeepsArguments k ts := by
  rintro o rfl hsum htwo
  rw [headFits, Bool.and_eq_true, beq_iff_eq, beq_iff_eq] at hfits
  obtain ⟨hkind, hkey⟩ := hfits
  cases h with
  | op o' =>
      have hsymbol : o'.symbol = o.symbol := symbol_eq_of_lower_eq hsum (Option.some.inj hkey)
      have hcommutes : Operator.isCommutative o'.symbol = true := by
        rcases hsum with hsum | hsum <;> rw [hsymbol, hsum] <;> decide
      simp [anyOrder?, commutative?, hcommutes, hlength, htwo] at hany
  | call name => simp [Head.kind] at hkind
  | list => simp [Head.kind] at hkind

theorem keepsOrder_node_of_none {h : Head} (hany : anyOrder? true h ps = none) (hps : ∀ p ∈ ps, KeepsOrder p)
    (hapart : ps.Pairwise (Apart movableNames)) : KeepsOrder (node h ps) := by
  intro K t u f g f' hcovers htu hfg hf hg hmatch
  have hjoint := joint_node_of_none hany
  have hloose : (node h ps).movableNames = (node h ps).joint.flatMap movableNames := by
    rw [hjoint, movableNames, hany, ← movableNamesOf_eq_flatMap]
    rfl
  cases htu.sameShape with
  | leaf v => cases hmatch
  | @node k ts us hlength hargs =>
      rw [matcher_node_pairwise hany] at hmatch ⊢
      split_ifs at hmatch with hfits
      rw [if_pos hfits]
      have hcount : ps.length = ts.length := by simpa using length_eq_of_pairwise hmatch
      rw [← hjoint] at hps hapart hmatch ⊢
      exact exists_pairwise_of_rearranged hps hapart (fun p hp => hcovers.of_mem_joint hloose hapart hp)
        (hargs (keepsArguments_of_headFits hany hfits hcount)) hfg (fun p hp => hf.of_mem_joint hloose hp)
        (fun p hp => hg.of_mem_joint hloose hp) hmatch

theorem keepsOrder_node_of_some {h : Head} (hany : anyOrder? true h ps = some symbol)
    (hqs : ∀ q ∈ ps.flatMap (operandsOf symbol), KeepsOrder q)
    (hapart : (ps.flatMap (operandsOf symbol)).Pairwise (Apart movableNames)) : KeepsOrder (node h ps) := by
  intro K t u f g f' hcovers htu hfg hf hg hmatch
  have hmovable : (node h ps).movableNames = usedNamesOf ps := by
    rw [movableNames, hany]
    rfl
  rw [IsFree, hmovable] at hf hg
  have hused {q : Pattern} (hq : q ∈ ps.flatMap (operandsOf symbol)) : q.usedNames ⊆ usedNamesOf ps :=
    usedNames_subset_of_mem_joint (p := node h ps) (by rwa [joint_node_of_some hany])
  have hfree {h : Captures} (hfree : ∀ key ∈ usedNamesOf ps, h.find? key = none) :
      ∀ q ∈ ps.flatMap (operandsOf symbol), q.IsFree movableNames h := fun q hq key hkey =>
    hfree key (hused hq (movableNames_subset_usedNames q hkey))
  -- Nothing has been captured under any name of the node, so that the captures agree on these.
  have hagree : f.AgreeOn
      (fun key => key ∈ usedNamesOf ps ∧ key ∉ (ps.flatMap (operandsOf symbol)).flatMap movableNames) g :=
    fun key hkey => by rw [hf key hkey.1, hg key hkey.1]
  have hfind : (matcher true (node h ps) u g).isSome = true := by
    cases htu.sameShape with
    | leaf v => cases hmatch
    | @node k ts us =>
        rw [matcher_node_anyOrder hany] at hmatch ⊢
        split_ifs at hmatch with hfits
        rw [if_pos hfits]
        refine isSome_anyOrder_of_rearranged hqs hapart (fun q hq => ?_) (hfree hf) (hfree hg) hagree htu
          (Option.isSome_of_eq_some hmatch)
        exact .of_pairwise hapart (fun r hr key hkey => and_iff_right (hused hr hkey)) hq
  obtain ⟨g', hg'⟩ := Option.isSome_iff_exists.1 hfind
  refine ⟨g', hg', agreeOn_of_matcher hfg (fun key hcapture hkey => ?_) hmatch hg'⟩
  have hused := captureNames_subset_usedNames _ hcapture
  exact (hcovers key hused).1 hkey (hmovable ▸ hused)

/-- What a pattern does with a tree, it does with its rearrangements, as long as no movable name ties two parts
together that have to match together. -/
theorem KeepsApart.keepsOrder (hp : p.KeepsApart movableNames true) : KeepsOrder p := by
  induction p using ind with
  | anything | anyMore =>
      intro K t u f g f' _ _ hfg _ _ hmatch
      cases hmatch
      exact ⟨g, rfl, hfg⟩
  | capture p key ih => exact keepsOrder_capture (hp.splitsNames) (ih (hp.mono (List.subset_cons_self _ _)))
  | ofKind kind =>
      intro K t u f g f' _ htu hfg _ _ hmatch
      rw [matcher, htu.kind_eq] at hmatch
      split_ifs at hmatch with hkind
      cases hmatch
      exact ⟨g, if_pos hkind, hfg⟩
  | anyOf ps ih => exact keepsOrder_anyOf fun p hmem => ih p hmem (hp.of_anyOf hmem)
  | allOf ps ih => exact keepsOrder_allOf (fun p hmem => ih p hmem (hp.of_mem_joint hmem)) (hp.splitsNames)
  | excluding p ih => exact keepsOrder_excluding (ih (hp.mono (List.subset_cons_self _ _)))
  | commuting p ih => exact ih (hp.mono (List.subset_cons_self _ _))
  | literal v =>
      intro K t u f g f' _ htu hfg _ _ hmatch
      cases htu.sameShape with
      | leaf w =>
          rw [matcher] at hmatch
          split_ifs at hmatch with heq
          cases hmatch
          exact ⟨g, if_pos heq, hfg⟩
      | node => cases hmatch
  | node h ps ih ihoperands =>
      cases hany : anyOrder? true h ps with
      | none =>
          have hjoint := joint_node_of_none hany
          refine keepsOrder_node_of_none hany (fun p hmem => ih p hmem (hp.of_mem_joint (by rwa [hjoint]))) ?_
          exact hjoint ▸ hp.splitsNames
      | some symbol =>
          have hjoint := joint_node_of_some hany
          refine keepsOrder_node_of_some hany (fun q hmem => ?_) (hjoint ▸ hp.splitsNames)
          exact ihoperands symbol q hmem (hp.of_mem_joint (by rwa [hjoint]))

/-- **Operands in any order.** As long as no movable name ties two parts together that have to match together, a
pattern matches a tree if and only if it matches its rearrangements. -/
theorem isSome_find_of_rearranged (hp : p.KeepsApart movableNames true) (htu : Rearranged t u) :
    (p.find t true).isSome = (p.find u true).isSome := by
  have hfresh : ∀ key ∈ p.usedNames, ¬key ∉ p.movableNames → (.empty : Captures).find? key = none :=
    fun _ _ _ => rfl
  have hrel := hp.keepsOrder.rel (K := (· ∉ p.movableNames)) (fun _ hkey hnot => hnot hkey) htu (.refl .empty)
    hfresh hfresh
  rw [find, find, ← Option.not_isNone, ← Option.not_isNone, isNone_eq_of_optionRel hrel]

/-- `$v;a ^ ?;n + sin($v;a)` and `x ^ (y + z) + sin(x)` -/
theorem isSome_find_of_rearranged_sum :
    let a : Pattern := capture (ofKind "name") "a"
    let p : Pattern := binary "+" (binary "^" a (capture anything "n")) (node (.call "sin") [a])
    let x : Tree := .leaf (.name "x" [])
    let y : Tree := .leaf (.name "y" [])
    let z : Tree := .leaf (.name "z" [])
    let sin : Tree := .node (.call "sin") [x]
    let t : Tree := .binary "+" (.binary "^" x (.binary "+" y z)) sin
    let u : Tree := .binary "+" sin (.binary "^" x (.binary "+" z y))
    p.KeepsApart movableNames true ∧ Rearranged t u ∧ (p.find t true).isSome = (p.find u true).isSome := by
  intro a p x y z sin t u
  have hp : p.KeepsApart movableNames true := by decide +kernel
  have hinner : Rearranged (.binary "+" y z) (.binary "+" z y) := .rel _ _ (.swap (.inl rfl) y z)
  have hpower : Rearranged (.binary "^" x (.binary "+" y z)) (.binary "^" x (.binary "+" z y)) :=
    Tree.Rearranged.inside _ [x] [] hinner
  have htu : Rearranged t u :=
    .trans _ _ _ (Tree.Rearranged.inside _ [] [sin] hpower) (.rel _ _ (.swap (.inl rfl) _ sin))
  exact ⟨hp, htu, isSome_find_of_rearranged hp htu⟩

/-- Rearranged trees are not equal, so that `?;a - ?;a` matches `(x + y) - (x + y)` but not `(x + y) - (y + x)`.
Each operand commits to the first way in which it matches, so that `(?;a + ?;b) * ?;a` matches `(x + y) * x` but
not `(y + x) * x`. -/
theorem not_isSome_find_of_rearranged :
    let x : Tree := .leaf (.name "x" [])
    let y : Tree := .leaf (.name "y" [])
    let a : Pattern := capture anything "a"
    (let p : Pattern := binary "-" a a
     let t : Tree := .binary "-" (.binary "+" x y) (.binary "+" x y)
     let u : Tree := .binary "-" (.binary "+" x y) (.binary "+" y x)
     Rearranged t u ∧ (p.find t true).isSome = true ∧ (p.find u true).isSome = false) ∧
    (let p : Pattern := binary "*" (binary "+" a (capture anything "b")) a
     let t : Tree := .binary "*" (.binary "+" x y) x
     let u : Tree := .binary "*" (.binary "+" y x) x
     Rearranged t u ∧ (p.find t true).isSome = true ∧ (p.find u true).isSome = false) := by
  intro x y a
  have hswap : Rearranged (.binary "+" x y) (.binary "+" y x) := .rel _ _ (.swap (.inl rfl) x y)
  have hdifference : Rearranged (.binary "-" (.binary "+" x y) (.binary "+" x y))
      (.binary "-" (.binary "+" x y) (.binary "+" y x)) :=
    Tree.Rearranged.inside _ [_] [] hswap
  have hproduct : Rearranged (.binary "*" (.binary "+" x y) x) (.binary "*" (.binary "+" y x) x) :=
    Tree.Rearranged.inside _ [] [x] hswap
  exact ⟨⟨hdifference, by decide +kernel⟩, hproduct, by decide +kernel⟩

end Pattern

end MathExpr
