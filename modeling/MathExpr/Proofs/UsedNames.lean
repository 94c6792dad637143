import MathExpr.Proofs.Matching

/-!
# What a match looks at

Whether a pattern matches a tree, and what it captures, is a matter of what has been captured before
under the names that the pattern uses, and of nothing else (`Pattern.agreeOn_matcher`).
-/

namespace MathExpr

/-! ### Captures that agree -/

namespace Captures

variable {K : String → Prop} {f g f' : Captures} {key : String} {t u : Tree}

/-- What has been captured under some names is the same. -/
def AgreeOn (K : String → Prop) (f g : Captures) : Prop := ∀ key, K key → f.find? key = g.find? key

theorem AgreeOn.refl (f : Captures) : f.AgreeOn K f := fun _ _ => rfl

theorem AgreeOn.symm (h : f.AgreeOn K g) : g.AgreeOn K f := fun key hkey => (h key hkey).symm

theorem AgreeOn.insert (h : f.AgreeOn K g) (key : String) (t : Tree) :
    AgreeOn K (f.insert key t) (g.insert key t) := by
  intro k hk
  rw [Table.find?_insert, Table.find?_insert, h k hk]

/-- Captures under other names do not matter. -/
theorem AgreeOn.insert_of_not (h : f.AgreeOn K g) (hkey : ¬K key) (t u : Tree) :
    AgreeOn K (f.insert key t) (g.insert key u) := by
  intro k hk
  have hne : k ≠ key := fun heq => hkey (heq ▸ hk)
  rw [Table.find?_insert, Table.find?_insert, if_neg hne, if_neg hne, h k hk]

theorem AgreeOn.bind (h : f.AgreeOn K g) (hkey : K key) :
    Option.Rel (AgreeOn K) (f.bind key t) (g.bind key t) := by
  rw [Captures.bind, Captures.bind, h key hkey]
  cases g.find? key with
  | none => exact .some (h.insert key t)
  | some u =>
      dsimp only
      split
      · exact .some (h.insert key t)
      · exact .none

/-- What is captured under another name may differ, as long as nothing has been captured under it before. -/
theorem AgreeOn.exists_bind_of_not (h : f.AgreeOn K g) (hkey : ¬K key) (hg : g.find? key = none)
    (hbind : f.bind key t = some f') : ∃ g', g.bind key u = some g' ∧ f'.AgreeOn K g' := by
  rw [eq_insert_of_bind hbind, bind_of_find?_eq_none hg]
  exact ⟨_, rfl, h.insert_of_not hkey t u⟩

end Captures

namespace Pattern

/-! ### Names that are used -/

mutual

/-- The names under which a pattern captures or looks at what has been captured. -/
def usedNames : Pattern → List String
  | capture p key => key :: usedNames p
  | anyOf ps | allOf ps | node _ ps => usedNamesOf ps
  | excluding p | commuting p => usedNames p
  | _ => []

/-- The names that the patterns of a list use. -/
def usedNamesOf : List Pattern → List String
  | [] => []
  | p :: ps => usedNames p ++ usedNamesOf ps

end

variable {commute commute' : Bool} {p : Pattern} {ps : List Pattern} {t u : Tree} {K : String → Prop}
  {f g f' g' : Captures}

theorem mem_usedNamesOf {key : String} : key ∈ usedNamesOf ps ↔ ∃ p ∈ ps, key ∈ p.usedNames := by
  induction ps with
  | nil => simp [usedNamesOf]
  | cons p ps ih => simp [usedNamesOf, ih]

theorem mem_usedNames_operandsOf {symbol key : String} {p q : Pattern} (hq : q ∈ p.operandsOf symbol)
    (hkey : key ∈ q.usedNames) : key ∈ p.usedNames := by
  fun_induction operandsOf symbol p with
  | case1 o p₁ p₂ _ h₁ h₂ =>
      rw [usedNames, mem_usedNamesOf]
      rcases List.mem_append.1 hq with hq | hq
      · exact ⟨p₁, List.mem_cons_self, h₁ hq⟩
      · exact ⟨p₂, by simp, h₂ hq⟩
  | case2 | case3 => rwa [← List.mem_singleton.1 hq]

theorem captureNames_subset_usedNames (p : Pattern) : p.captureNames ⊆ p.usedNames := by
  intro key hkey
  induction p using ind with
  | capture p k ih =>
      rcases List.mem_cons.1 hkey with rfl | hkey
      · exact List.mem_cons_self
      · exact List.mem_cons_of_mem k (ih hkey)
  | anyOf ps ih | allOf ps ih | node h ps ih _ =>
      obtain ⟨p, hp, hkey⟩ := mem_captureNamesOf.1 hkey
      exact mem_usedNamesOf.2 ⟨p, hp, ih p hp hkey⟩
  | commuting p ih => exact ih hkey
  | literal v => cases hkey
  | _ => cases hkey

/-! ### Agreement -/

open Captures (AgreeOn)

/-- Matches leave captures as alike as they were, as far as they do not capture under the names. -/
theorem agreeOn_of_matcher (hfg : f.AgreeOn K g) (hK : ∀ key ∈ p.captureNames, ¬K key)
    (hf : matcher commute p t f = some f') (hg : matcher commute' p u g = some g') : f'.AgreeOn K g' := by
  intro key hkey
  have hnot : key ∉ p.captureNames := fun hcapture => hK key hcapture hkey
  rw [find?_of_matcher hnot hf, find?_of_matcher hnot hg, hfg key hkey]

theorem optionRel_bind {α β γ δ : Type} {R : α → β → Prop} {S : γ → δ → Prop} {x : Option α} {y : Option β}
    {f : α → Option γ} {g : β → Option δ} (h : Option.Rel R x y)
    (hfg : ∀ a b, R a b → Option.Rel S (f a) (g b)) : Option.Rel S (x.bind f) (y.bind g) := by
  cases h with
  | none => exact .none
  | some hab => exact hfg _ _ hab

theorem optionRel_findSome? {α β γ : Type} {R : β → γ → Prop} {f : α → Option β} {g : α → Option γ}
    {as : List α} (h : ∀ a ∈ as, Option.Rel R (f a) (g a)) :
    Option.Rel R (as.findSome? f) (as.findSome? g) := by
  induction as with
  | nil => exact .none
  | cons a as ih =>
      obtain ⟨ha, has⟩ := List.forall_mem_cons.1 h
      rw [List.findSome?_cons, List.findSome?_cons]
      generalize f a = x at ha ⊢
      generalize g a = y at ha ⊢
      cases ha with
      | none => exact ih has
      | some hbc => exact .some hbc

theorem isNone_eq_of_optionRel {α β : Type} {R : α → β → Prop} {x : Option α} {y : Option β}
    (h : Option.Rel R x y) : x.isNone = y.isNone := by
  cases h <;> rfl

theorem exists_of_optionRel {α β : Type} {R : α → β → Prop} {a : α} {y : Option β}
    (h : Option.Rel R (some a) y) : ∃ b, y = some b ∧ R a b := by
  cases h with
  | some hab => exact ⟨_, rfl, hab⟩

/-- A matcher finds the same where the captures agree. -/
abbrev Agrees (K : String → Prop) (m : Matcher) : Prop :=
  ∀ t f g, f.AgreeOn K g → Option.Rel (AgreeOn K) (m t f) (m t g)

theorem agreeOn_pairwise {ms : List Matcher} (hms : ∀ m ∈ ms, Agrees K m) (ts : List Tree)
    (hfg : f.AgreeOn K g) : Option.Rel (AgreeOn K) (pairwise ms ts f) (pairwise ms ts g) := by
  induction ms generalizing ts f g with
  | nil =>
      cases ts with
      | nil => exact .some hfg
      | cons t ts => exact .none
  | cons m ms ih =>
      obtain ⟨hm, hms⟩ := List.forall_mem_cons.1 hms
      cases ts with
      | nil => exact .none
      | cons t ts => exact optionRel_bind (hm t f g hfg) fun f g hfg => ih hms ts hfg

theorem optionRel_firstOf {α β γ : Type} {R : β → γ → Prop} {f : α → List α → Option β}
    {g : α → List α → Option γ} (h : ∀ a rest, Option.Rel R (f a rest) (g a rest)) (before as : List α) :
    Option.Rel R (firstOf f before as) (firstOf g before as) := by
  induction as generalizing before with
  | nil => exact .none
  | cons a as ih =>
      unfold firstOf
      have ha := h a (before.reverse ++ as)
      generalize f a (before.reverse ++ as) = x at ha ⊢
      generalize g a (before.reverse ++ as) = y at ha ⊢
      cases ha with
      | none => exact ih _
      | some hbc => exact .some hbc

theorem agreeOn_assign {finish : List Tree → Captures → Option Captures}
    (hfinish : ∀ left f g, f.AgreeOn K g → Option.Rel (AgreeOn K) (finish left f) (finish left g))
    {ms : List Matcher} (hms : ∀ m ∈ ms, Agrees K m) (ts : List Tree) (hfg : f.AgreeOn K g) :
    Option.Rel (AgreeOn K) (assign finish ms ts f) (assign finish ms ts g) := by
  induction ms generalizing ts f g with
  | nil => exact hfinish ts f g hfg
  | cons m ms ih =>
      obtain ⟨hm, hms⟩ := List.forall_mem_cons.1 hms
      exact optionRel_firstOf (fun t rest => optionRel_bind (hm t f g hfg) fun f g hfg => ih hms rest hfg)
        [] ts

theorem agreeOn_anyOrder {symbol : String} {qs : List Pattern} (hqs : ∀ q ∈ qs, Agrees K (matcher true q))
    (t : Tree) (hfg : f.AgreeOn K g) :
    Option.Rel (AgreeOn K) (anyOrder symbol (qs.map toOperand) t f)
      (anyOrder symbol (qs.map toOperand) t g) := by
  rw [anyOrder_eq_assign, anyOrder_eq_assign]
  rw [← single_append_rest? qs] at hqs
  obtain ⟨hsingle, hrest⟩ := List.forall_mem_append.1 hqs
  refine agreeOn_assign (fun left f g hfg => ?_) (List.forall_mem_map.2 hsingle) _ hfg
  unfold absorb
  split
  · rename_i q hq
    cases Tree.chain? symbol left with
    | none => exact .none
    | some u => exact hrest q (by simp [hq]) u f g hfg
  · split
    · exact .some hfg
    · exact .none

/-- A match looks at nothing that has been captured under other names than the pattern uses. -/
theorem agreeOn_matcher (p : Pattern) (hK : ∀ key ∈ p.usedNames, K key) : Agrees K (matcher commute p) := by
  have hif {b : Prop} [Decidable b] {f g : Captures} (hfg : f.AgreeOn K g) :
      Option.Rel (AgreeOn K) (if b then some f else none) (if b then some g else none) := by
    split
    · exact .some hfg
    · exact .none
  induction p using ind generalizing commute with
  | anything | anyMore => exact fun t f g hfg => .some hfg
  | capture p key ih =>
      intro t f g hfg
      refine optionRel_bind (ih (fun k hk => hK k (List.mem_cons_of_mem key hk)) t f g hfg) ?_
      exact fun f g hfg => hfg.bind (hK key List.mem_cons_self)
  | ofKind kind => exact fun t f g hfg => hif hfg
  | anyOf ps ih =>
      intro t f g hfg
      rw [matcher_anyOf, matcher_anyOf]
      refine optionRel_findSome? fun p hp => ih p hp (fun k hk => hK k ?_) t f g hfg
      exact mem_usedNamesOf.2 ⟨p, hp, hk⟩
  | allOf ps ih =>
      intro t f g hfg
      rw [matcher_allOf, matcher_allOf]
      refine agreeOn_pairwise (List.forall_mem_map.2 fun p hp => ?_) _ hfg
      exact ih p hp fun k hk => hK k (mem_usedNamesOf.2 ⟨p, hp, hk⟩)
  | excluding p ih =>
      intro t f g hfg
      rw [matcher, matcher, isNone_eq_of_optionRel (ih hK t f g hfg)]
      exact hif hfg
  | commuting p ih => exact fun t f g hfg => ih hK t f g hfg
  | literal v =>
      intro t f g hfg
      cases t with
      | node k ts => exact .none
      | leaf w => exact hif hfg
  | node h ps ih ihoperands =>
      intro t f g hfg
      cases t with
      | leaf w => exact .none
      | node k ts =>
          cases hany : anyOrder? commute h ps with
          | none =>
              rw [matcher_node_pairwise hany, matcher_node_pairwise hany]
              split
              · refine agreeOn_pairwise (List.forall_mem_map.2 fun p hp => ?_) ts hfg
                exact ih p hp fun k hk => hK k (mem_usedNamesOf.2 ⟨p, hp, hk⟩)
              · exact .none
          | some symbol =>
              rw [matcher_node_anyOrder hany, matcher_node_anyOrder hany]
              split
              · refine agreeOn_anyOrder (fun q hq => ihoperands symbol q hq fun key hkey => hK key ?_) _ hfg
                obtain ⟨p, hp, hq⟩ := List.mem_flatMap.1 hq
                exact mem_usedNamesOf.2 ⟨p, hp, mem_usedNames_operandsOf hq hkey⟩
              · exact .none

end Pattern

end MathExpr
