import MathExpr.Proofs.RuleEffects
import Mathlib.Data.List.Induction
import Mathlib.Data.List.Perm.Subperm
import Mathlib.Data.Prod.Lex
import Mathlib.Logic.Relation

/-!
# The last mention wins

A rule is selected if an entry includes it and no later entry excludes it; no rule is selected twice; and the
rules are in the order in which they have been included, each for the first time after its last exclusion
(`Ruleset.collect_lastMentionWins`). The rules behind a name are those of the selection that it stands for,
so names may be nested, if none leads to itself.

* Each entry excludes some rules and then includes others. So in the end there are the inclusions that no later
  entry has undone, in order (`Effect.mem_surviving`, `Effect.pairwise_surviving`).
* Of a list of rules the first of each is kept (`Rule.pairwise_distinct`).
* The selections on the way to a nested one are different ones, and so the depth is enough
  (`Ruleset.exists_collect`).

The name of a display flag always means the flag. So no set is reached by such a name
(`Ruleset.not_lastMentionWins`).
-/

namespace MathExpr

/-! ### Lists without repetitions -/

namespace Rule

variable {a b r : Rule} {rs rs' : List Rule}

theorem isIn_iff : a.isIn rs = true ↔ ∃ r ∈ rs, r.serial = a.serial := by
  simp [isIn]

theorem isIn_append : a.isIn (rs ++ rs') = (a.isIn rs || a.isIn rs') :=
  List.any_append

/-- Whether a list holds a rule depends on its serial number. -/
theorem isIn_congr (h : a.serial = b.serial) (rs : List Rule) : a.isIn rs = b.isIn rs := by
  unfold isIn
  rw [h]

theorem distinct_concat (rs : List Rule) (r : Rule) :
    distinct (rs ++ [r]) = if r.isIn (distinct rs) then distinct rs else distinct rs ++ [r] := by
  unfold distinct
  rw [List.foldl_append]
  rfl

theorem isIn_distinct (a : Rule) (rs : List Rule) : a.isIn (distinct rs) = a.isIn rs := by
  induction rs using List.reverseRecOn generalizing a with
  | nil => rfl
  | append_singleton rs r ih =>
      rw [distinct_concat, isIn_append]
      split
      · rename_i hr
        -- a rule that is left out is in the list already
        have hsingle : a.isIn [r] = true → a.isIn rs = true := by
          intro ha
          obtain ⟨_, hmem, hserial⟩ := isIn_iff.1 ha
          cases List.mem_singleton.1 hmem
          rw [← isIn_congr hserial, ← ih, hr]
        rw [ih, Bool.eq_iff_iff, Bool.or_eq_true]
        exact ⟨.inl, fun h => h.elim id hsingle⟩
      · rw [isIn_append, ih]

theorem nodup_distinct (rs : List Rule) : ((distinct rs).map serial).Nodup := by
  induction rs using List.reverseRecOn with
  | nil => exact List.nodup_nil
  | append_singleton rs r ih =>
      rw [distinct_concat]
      split
      · exact ih
      · rename_i hr
        rw [List.map_append, List.nodup_append]
        refine ⟨ih, List.nodup_cons.2 ⟨List.not_mem_nil, .nil⟩, fun n hn m hm hnm => hr ?_⟩
        obtain ⟨r', hr', rfl⟩ := List.mem_map.1 hn
        exact isIn_iff.2 ⟨r', hr', hnm.trans (List.mem_singleton.1 hm)⟩

/-! #### Places -/

variable {α : Type} [LinearOrder α] {placed : List (α × Rule)} {p q : α}

/-- The first place of a rule among rules with places. -/
def IsFirst (placed : List (α × Rule)) (a : Rule) (p : α) : Prop :=
  (∃ r, (p, r) ∈ placed ∧ r.serial = a.serial) ∧
    ∀ q r, (q, r) ∈ placed → r.serial = a.serial → p ≤ q

/-- A later place changes nothing about the first. -/
theorem IsFirst.concat (h : IsFirst placed a p) (hlater : ∀ x ∈ placed, x.1 < q) (r : Rule) :
    IsFirst (placed ++ [(q, r)]) a p := by
  obtain ⟨⟨r', hr', hserial⟩, hfirst⟩ := h
  refine ⟨⟨r', List.mem_append_left _ hr', hserial⟩, fun q' s hs hs' => ?_⟩
  rcases List.mem_append.1 hs with hs | hs
  · exact hfirst q' s hs hs'
  · cases List.mem_singleton.1 hs
    exact (hlater _ hr').le

/-- A rule that is new has its first place at the end. -/
theorem isFirst_concat (hr : r.isIn (placed.map Prod.snd) = false) : IsFirst (placed ++ [(q, r)]) r q := by
  refine ⟨⟨r, List.mem_append_right _ (List.mem_singleton_self _), rfl⟩, fun q' s hs hserial => ?_⟩
  rcases List.mem_append.1 hs with hs | hs
  · rw [isIn_iff.2 ⟨s, List.mem_map_of_mem hs, hserial⟩] at hr
    cases hr
  · cases List.mem_singleton.1 hs
    exact le_rfl

/-- The first of each rule is kept, in order. -/
theorem pairwise_distinct (h : placed.Pairwise fun x y => x.1 < y.1) :
    (∀ a ∈ distinct (placed.map Prod.snd), ∃ p, IsFirst placed a p) ∧
      (distinct (placed.map Prod.snd)).Pairwise fun a b =>
        ∃ p q, IsFirst placed a p ∧ IsFirst placed b q ∧ p < q := by
  induction placed using List.reverseRecOn with
  | nil => exact ⟨fun a ha => absurd ha List.not_mem_nil, .nil⟩
  | append_singleton placed x ih =>
      obtain ⟨q, r⟩ := x
      obtain ⟨hplaced, -, hlater⟩ := List.pairwise_append.1 h
      have hlast (x : α × Rule) (hx : x ∈ placed) : x.1 < q := hlater x hx _ (List.mem_singleton_self _)
      obtain ⟨hexists, hpairwise⟩ := ih hplaced
      have hkeep : ∀ a ∈ distinct (placed.map Prod.snd),
          ∃ p, IsFirst (placed ++ [(q, r)]) a p ∧ p < q := by
        intro a ha
        obtain ⟨p, hp⟩ := hexists a ha
        obtain ⟨⟨r', hr', -⟩, -⟩ := id hp
        exact ⟨p, hp.concat hlast r, hlast _ hr'⟩
      have hpairwise' := hpairwise.imp fun ⟨p, q', hp, hq', hlt⟩ =>
        (⟨p, q', hp.concat hlast r, hq'.concat hlast r, hlt⟩ :
          ∃ p q', IsFirst (placed ++ [(q, r)]) _ p ∧ IsFirst (placed ++ [(q, r)]) _ q' ∧ p < q')
      rw [List.map_append, List.map_singleton, distinct_concat]
      split
      · exact ⟨fun a ha => (hkeep a ha).imp fun _ => And.left, hpairwise'⟩
      · rename_i hr
        have hnew : IsFirst (placed ++ [(q, r)]) r q := by
          refine isFirst_concat ?_
          rw [← isIn_distinct]
          exact eq_false_of_ne_true hr
        constructor
        · intro a ha
          rcases List.mem_append.1 ha with ha | ha
          · exact (hkeep a ha).imp fun _ => And.left
          · cases List.mem_singleton.1 ha
            exact ⟨q, hnew⟩
        · refine List.pairwise_append.2 ⟨hpairwise', List.pairwise_singleton _ _, fun a ha b hb => ?_⟩
          cases List.mem_singleton.1 hb
          obtain ⟨p, hp, hlt⟩ := hkeep a ha
          exact ⟨p, q, hp, hnew, hlt⟩

end Rule

/-! ### Inclusions that are not undone -/

namespace Effect

/-- Whether a rule is excluded by one of some effects. -/
def isUndone (xs : List Effect) (r : Rule) : Bool :=
  xs.any fun x => r.isIn x.excluded

/-- The rules that effects include and later ones do not exclude, with their places: the number of the
effect, from `start` on, and the number among the rules that it includes. -/
def surviving (start : Nat) : List Effect → List ((Nat ×ₗ Nat) × Rule)
  | [] => []
  | x :: rest =>
    ((x.included.zipIdx.map fun e => (toLex (start, e.2), e.1)).filter fun e => !isUndone rest e.2) ++
      surviving (start + 1) rest

variable {x : Effect} {xs : List Effect} {start : Nat}

/-- Of what has been collected before, the effects leave what they do not exclude. -/
theorem foldl_applyTo_fst (start : Nat) (sofar : List Rule × Table Bool) (xs : List Effect) :
    (xs.foldl applyTo sofar).1 =
      sofar.1.filter (fun r => !isUndone xs r) ++ (surviving start xs).map Prod.snd := by
  induction xs generalizing start sofar with
  | nil =>
      rw [surviving, List.map_nil, List.append_nil]
      exact (List.filter_eq_self.2 fun _ _ => rfl).symm
  | cons x rest ih =>
      have hplaced (rs : List Rule) (p : Rule → Bool) :
          ((rs.zipIdx.map fun e => (toLex (start, e.2), e.1)).filter fun e => p e.2).map Prod.snd =
            rs.filter p := by
        conv_rhs => rw [← List.zipIdx_map_fst 0 rs]
        rw [List.filter_map, List.filter_map, List.map_map]
        rfl
      rw [List.foldl_cons, ih (start + 1), applyTo, surviving, List.map_append,
        hplaced x.included fun r => !isUndone rest r, List.filter_append, List.filter_filter,
        List.append_assoc]
      congr 1
      refine List.filter_congr fun r _ => ?_
      rw [isUndone, isUndone, List.any_cons, Bool.not_or, Bool.and_comm]

theorem le_of_mem_surviving {p : Nat ×ₗ Nat} {r : Rule} (h : (p, r) ∈ surviving start xs) :
    start ≤ (ofLex p).1 := by
  induction xs generalizing start with
  | nil => cases h
  | cons x rest ih =>
      rcases List.mem_append.1 h with h | h
      · obtain ⟨e, -, he⟩ := List.mem_map.1 (List.mem_of_mem_filter h)
        cases he
        exact le_rfl
      · exact (Nat.le_succ start).trans (ih h)

/-- The places come in order. -/
theorem pairwise_surviving (start : Nat) (xs : List Effect) :
    (surviving start xs).Pairwise fun a b => a.1 < b.1 := by
  induction xs generalizing start with
  | nil => exact .nil
  | cons x rest ih =>
      refine List.pairwise_append.2 ⟨.filter _ ?_, ih (start + 1), fun a ha b hb => ?_⟩
      · rw [List.pairwise_map]
        have hnumbers : (x.included.zipIdx.map Prod.snd).Pairwise (· < ·) := by
          rw [List.zipIdx_map_snd]
          exact List.pairwise_lt_range'
        refine (List.pairwise_map.1 hnumbers).imp fun hlt => ?_
        exact Prod.Lex.toLex_lt_toLex.2 (.inr ⟨rfl, hlt⟩)
      · obtain ⟨e, -, rfl⟩ := List.mem_map.1 (List.mem_of_mem_filter ha)
        exact Prod.Lex.lt_iff.2 (.inl (Nat.lt_of_succ_le (le_of_mem_surviving hb)))

theorem isUndone_eq_false {r : Rule} :
    isUndone xs r = false ↔ ∀ (j : Nat) (x : Effect), xs[j]? = some x → r.isIn x.excluded = false := by
  simp only [isUndone, List.any_eq_false, List.mem_iff_getElem?, Bool.not_eq_true]
  exact ⟨fun h j x hx => h x ⟨j, hx⟩, fun h x ⟨j, hx⟩ => h j x hx⟩

/-- What survives has been included, and no later effect excludes it. -/
theorem mem_surviving {i k : Nat} {r : Rule} :
    (toLex (start + i, k), r) ∈ surviving start xs ↔
      ∃ x, xs[i]? = some x ∧ x.included[k]? = some r ∧
        ∀ (j : Nat) (x' : Effect), i < j → xs[j]? = some x' → r.isIn x'.excluded = false := by
  induction xs generalizing start i with
  | nil => simp [surviving]
  | cons x rest ih =>
      rw [surviving, List.mem_append]
      cases i with
      | zero =>
          have hlater : (toLex (start + 0, k), r) ∉ surviving (start + 1) rest := fun h =>
            absurd (le_of_mem_surviving h) (Nat.not_succ_le_self start)
          have hplace : x.included[k]? = some r ↔
              (toLex (start + 0, k), r) ∈ x.included.zipIdx.map fun e => (toLex (start, e.2), e.1) := by
            rw [← List.mk_mem_zipIdx_iff_getElem?]
            simp
          rw [or_iff_left hlater, List.mem_filter, ← hplace, Bool.not_eq_true', isUndone_eq_false]
          constructor
          · rintro ⟨hr, hkept⟩
            refine ⟨x, rfl, hr, fun j x' hj hx' => ?_⟩
            obtain ⟨j, rfl⟩ := Nat.exists_eq_succ_of_ne_zero hj.ne'
            exact hkept j x' hx'
          · rintro ⟨_, ⟨⟩, hr, hkept⟩
            exact ⟨hr, fun j x' hx' => hkept (j + 1) x' (Nat.succ_pos j) hx'⟩
      | succ i =>
          have hfirst : (toLex (start + (i + 1), k), r) ∉
              (x.included.zipIdx.map fun e => (toLex (start, e.2), e.1)).filter fun e =>
                !isUndone rest e.2 := by
            intro h
            obtain ⟨e, -, he⟩ := List.mem_map.1 (List.mem_of_mem_filter h)
            simp at he
          rw [or_iff_right hfirst, ← Nat.add_assoc, Nat.add_right_comm, ih]
          refine exists_congr fun x' => and_congr_right fun _ => and_congr_right fun _ => ?_
          constructor
          · intro hkept j x'' hj hx''
            obtain ⟨j, rfl⟩ := Nat.exists_eq_succ_of_ne_zero (Nat.ne_zero_of_lt hj)
            exact hkept j x'' (Nat.lt_of_succ_lt_succ hj) hx''
          · exact fun hkept j x'' hj hx'' => hkept (j + 1) x'' (Nat.succ_lt_succ hj) hx''

end Effect

/-! ### Nested selections -/

namespace Ruleset

variable {reserved : List String} {sets : Table Selection} {s s' : Selection}

/-- A selection mentions a set that stands for another. -/
def LeadsTo (reserved : List String) (sets : Table Selection) (s s' : Selection) : Prop :=
  ∃ e ∈ s.toEntries, ∃ excluded name, e.mention? reserved = some (excluded, name) ∧
    lookup sets name = .ok s'

/-- All sets that a selection mentions are known, and so on for the selections that these stand for, of which
none leads to itself. -/
structure IsGrounded (reserved : List String) (sets : Table Selection) (s : Selection) : Prop where
  known : ∀ s', Relation.ReflTransGen (LeadsTo reserved sets) s s' → ∀ e ∈ s'.toEntries,
    ∀ excluded name, e.mention? reserved = some (excluded, name) → ∃ s'', lookup sets name = .ok s''
  acyclic : ∀ s', Relation.ReflTransGen (LeadsTo reserved sets) s s' →
    ¬Relation.TransGen (LeadsTo reserved sets) s' s'

theorem IsGrounded.of_leadsTo (h : IsGrounded reserved sets s) (hs : LeadsTo reserved sets s s') :
    IsGrounded reserved sets s' :=
  ⟨fun s'' hs'' => h.known s'' (.head hs hs''), fun s'' hs'' => h.acyclic s'' (.head hs hs'')⟩

/-- A selection is grounded if the sets that it mentions are known and grounded. -/
theorem IsGrounded.intro
    (h : ∀ e ∈ s.toEntries, ∀ excluded name, e.mention? reserved = some (excluded, name) →
      ∃ s', lookup sets name = .ok s' ∧ IsGrounded reserved sets s') : IsGrounded reserved sets s := by
  have hstep {s' : Selection} (hs : LeadsTo reserved sets s s') : IsGrounded reserved sets s' := by
    obtain ⟨e, he, excluded, name, hmention, hlookup⟩ := hs
    obtain ⟨s'', hlookup', hgrounded⟩ := h e he excluded name hmention
    cases hlookup.symm.trans hlookup'
    exact hgrounded
  constructor
  · intro s' hreach e he excluded name hmention
    cases hreach.cases_head with
    | inl heq =>
        subst heq
        obtain ⟨s', hlookup, -⟩ := h e he excluded name hmention
        exact ⟨s', hlookup⟩
    | inr hreach =>
        obtain ⟨c, hc, hreach⟩ := hreach
        exact (hstep hc).known s' hreach e he excluded name hmention
  · intro s' hreach hcycle
    cases hreach.cases_head with
    | inl heq =>
        -- the first selection on a cycle through `s` leads to itself too
        subst heq
        obtain ⟨c, hc, hback⟩ := Relation.TransGen.head'_iff.1 hcycle
        exact (hstep hc).acyclic c .refl (.tail' hback hc)
    | inr hreach =>
        obtain ⟨c, hc, hreach⟩ := hreach
        exact (hstep hc).acyclic s' hreach hcycle

theorem mem_of_lookup {name : String} (h : lookup sets name = .ok s) : s ∈ sets.entries.map Prod.snd := by
  unfold lookup at h
  split at h
  · rename_i s' hfind
    cases h
    obtain ⟨before, after, hentries, -⟩ := List.lookup_eq_some_iff.1 hfind
    rw [hentries]
    simp
  · split at h
    · rename_i e hfind
      cases h
      exact List.mem_map_of_mem (List.mem_of_find?_eq_some hfind)
    · cases h

end Ruleset

namespace Ruleset

variable {sets : Table Selection} {s : Selection} {depth : Nat}

/-- The depth is enough: there are no more selections on the way to a nested one than there are names. -/
theorem exists_collectWith {path : List Selection} (h : IsGrounded flagNames sets s) (hnodup : path.Nodup)
    (hmem : ∀ s' ∈ path, s' ∈ sets.entries.map Prod.snd)
    (hleads : ∀ s' ∈ path, Relation.ReflTransGen (LeadsTo flagNames sets) s' s)
    (hdepth : path.length + depth = sets.entries.length + 1) : ∃ r, collectWith sets depth s = .ok r := by
  induction depth generalizing path s with
  | zero =>
      have hlength := (List.subperm_of_subset hnodup hmem).length_le
      rw [List.length_map] at hlength
      omega
  | succ depth ih =>
      by_cases hs : ∃ r', s = .ruleset r'
      · obtain ⟨r', rfl⟩ := hs
        exact ⟨r', collectWith_ruleset _ r'⟩
      · rw [collectWith_succ_eq fun r' heq => hs ⟨r', heq⟩]
        have heffects : ∀ e ∈ s.toEntries, ∃ x, Effect.ofEntry sets (collectWith sets depth) e = .ok x := by
          intro e he
          cases hmention : e.mention? flagNames with
          | none =>
              obtain ⟨x, hx⟩ := Effect.exists_ofEntry_of_mention_eq_none sets hmention
              exact ⟨x, hx _⟩
          | some mention =>
              obtain ⟨excluded, name⟩ := mention
              obtain ⟨s', hs'⟩ := h.known s .refl e he excluded name hmention
              have hstep : LeadsTo flagNames sets s s' := ⟨e, he, excluded, name, hmention, hs'⟩
              -- a selection that came before would lead to itself
              have hnew : s' ∉ path := fun hs'path =>
                h.acyclic s' (.single hstep) (.tail' (hleads s' hs'path) hstep)
              obtain ⟨r', hr'⟩ := ih (h.of_leadsTo hstep)
                (List.nodup_cons.2 ⟨hnew, hnodup⟩) (List.forall_mem_cons.2 ⟨mem_of_lookup hs', hmem⟩)
                (List.forall_mem_cons.2 ⟨.refl, fun s'' hs'' => (hleads s'' hs'').tail hstep⟩)
                (by rw [List.length_cons]; omega)
              rw [Effect.ofEntry_of_mention hmention, hs']
              show ∃ x, collectWith sets depth s' >>= _ = _
              rw [hr']
              cases excluded with
              | true => exact ⟨_, rfl⟩
              | false => exact ⟨_, rfl⟩
        obtain ⟨xs, hxs⟩ := exists_mapM_eq_ok heffects
        rw [hxs]
        exact ⟨_, rfl⟩

theorem exists_collect (h : IsGrounded flagNames sets s) : ∃ r, collect sets s = .ok r :=
  exists_collectWith h List.nodup_nil (fun _ h => absurd h List.not_mem_nil)
    (fun _ h => absurd h List.not_mem_nil) (Nat.zero_add _)

end Ruleset

/-! ### The last mention -/

namespace Entry

variable {reserved : List String} {sets : Table Selection} {e : Entry} {rules : List Rule}

/-- The rules that an entry includes: itself, those of a ruleset, or those of a set that it mentions without an
exclamation mark. -/
inductive Includes (reserved : List String) (sets : Table Selection) : Entry → List Rule → Prop
  | rule {r : Rule} : Includes reserved sets (.rule r) [r]
  | ruleset {r : Ruleset} : Includes reserved sets (.ruleset r) r.rules
  | set {e : Entry} {r : Ruleset} (h : e.Mentions reserved sets false r) : Includes reserved sets e r.rules

/-- The rules that an entry excludes: those of a set that it mentions with an exclamation mark. -/
inductive Excludes (reserved : List String) (sets : Table Selection) : Entry → List Rule → Prop
  | set {e : Entry} {r : Ruleset} (h : e.Mentions reserved sets true r) : Excludes reserved sets e r.rules

end Entry

namespace Effect

open Ruleset

variable {sets : Table Selection} {e : Entry} {x : Effect} {rules : List Rule}

/-- The effect of an entry is to include what it includes. -/
theorem included_of_ofEntry (h : ofEntry sets (collect sets) e = .ok x) {k : Nat} {r : Rule} :
    x.included[k]? = some r ↔ ∃ rules, e.Includes flagNames sets rules ∧ rules[k]? = some r := by
  cases isOf_of_ofEntry h with
  | rule =>
      refine ⟨fun hr => ⟨_, .rule, hr⟩, ?_⟩
      rintro ⟨_, _ | _ | hmentions, hr⟩
      · exact hr
      · exact absurd hmentions (Entry.not_mentions rfl)
  | ruleset =>
      refine ⟨fun hr => ⟨_, .ruleset, hr⟩, ?_⟩
      rintro ⟨_, _ | _ | hmentions, hr⟩
      · exact hr
      · exact absurd hmentions (Entry.not_mentions rfl)
  | flag hflag =>
      refine iff_of_false nofun ?_
      rintro ⟨_, _ | _ | hmentions, -⟩
      exact Entry.not_mentions (Entry.mention?_eq_none_iff.2 hflag) hmentions
  | exclusion hmentions =>
      refine iff_of_false nofun ?_
      rintro ⟨_, _ | _ | hmentions', -⟩
      cases (hmentions.unique hmentions').1
  | inclusion hmentions =>
      refine ⟨fun hr => ⟨_, .set hmentions, hr⟩, ?_⟩
      rintro ⟨_, _ | _ | hmentions', hr⟩
      obtain ⟨-, rfl⟩ := hmentions.unique hmentions'
      exact hr

/-- The effect of an entry is to exclude what it excludes. -/
theorem excluded_of_ofEntry (h : ofEntry sets (collect sets) e = .ok x) {rule : Rule} :
    rule.isIn x.excluded = true ↔ ∃ rules, e.Excludes flagNames sets rules ∧ rule.isIn rules = true := by
  cases isOf_of_ofEntry h with
  | rule | ruleset =>
      refine iff_of_false nofun ?_
      rintro ⟨_, ⟨hmentions⟩, -⟩
      exact Entry.not_mentions rfl hmentions
  | flag hflag =>
      refine iff_of_false nofun ?_
      rintro ⟨_, ⟨hmentions⟩, -⟩
      exact Entry.not_mentions (Entry.mention?_eq_none_iff.2 hflag) hmentions
  | exclusion hmentions =>
      refine ⟨fun hrule => ⟨_, .set hmentions, hrule⟩, ?_⟩
      rintro ⟨_, ⟨hmentions'⟩, hrule⟩
      obtain ⟨-, rfl⟩ := hmentions.unique hmentions'
      exact hrule
  | inclusion hmentions =>
      refine iff_of_false nofun ?_
      rintro ⟨_, ⟨hmentions'⟩, -⟩
      cases (hmentions.unique hmentions').1

end Effect

namespace Ruleset

variable {reserved : List String} {sets : Table Selection} {es : List Entry} {rules : List Rule}

/-- A rule stands at a place: entry number `i` includes it as number `k`, and no later entry excludes it. -/
def StandsAt (reserved : List String) (sets : Table Selection) (es : List Entry) (rule : Rule)
    (place : Nat ×ₗ Nat) : Prop :=
  ∃ e rules r, es[(ofLex place).1]? = some e ∧ e.Includes reserved sets rules ∧
    rules[(ofLex place).2]? = some r ∧ r.serial = rule.serial ∧
    ∀ (j : Nat) (e' : Entry) (rules' : List Rule), (ofLex place).1 < j → es[j]? = some e' →
      e'.Excludes reserved sets rules' → rule.isIn rules' = false

/-- The first place at which a rule stands. -/
def StandsFirstAt (reserved : List String) (sets : Table Selection) (es : List Entry) (rule : Rule)
    (place : Nat ×ₗ Nat) : Prop :=
  StandsAt reserved sets es rule place ∧ ∀ place', StandsAt reserved sets es rule place' → place ≤ place'

/-- The last mention of a rule decides: the rules are those that an entry includes and no later entry excludes,
none occurs twice, and they are in the order of their first inclusions after their last exclusions. -/
structure LastMentionWins (reserved : List String) (sets : Table Selection) (es : List Entry)
    (rules : List Rule) : Prop where
  mem : ∀ rule : Rule, rule.isIn rules = true ↔ ∃ (i : Nat) (e : Entry) (included : List Rule),
    es[i]? = some e ∧ e.Includes reserved sets included ∧ rule.isIn included = true ∧
    ∀ (j : Nat) (e' : Entry) (excluded : List Rule), i < j → es[j]? = some e' →
      e'.Excludes reserved sets excluded → rule.isIn excluded = false
  nodup : (rules.map Rule.serial).Nodup
  ordered : rules.Pairwise fun a b => ∃ p q, StandsFirstAt reserved sets es a p ∧
    StandsFirstAt reserved sets es b q ∧ p < q

/-- What no later entry excludes no later effect excludes. -/
theorem forall_excludes_iff {xs : List Effect}
    (hxs : es.mapM (Effect.ofEntry sets (collect sets)) = .ok xs) {i : Nat} {rule : Rule} :
    (∀ (j : Nat) (e : Entry) (excluded : List Rule), i < j → es[j]? = some e →
        e.Excludes flagNames sets excluded → rule.isIn excluded = false) ↔
      ∀ (j : Nat) (x : Effect), i < j → xs[j]? = some x → rule.isIn x.excluded = false := by
  constructor
  · intro h j x hj hx
    obtain ⟨e, he, hex⟩ := exists_of_mapM_eq_ok hxs hx
    refine eq_false_of_ne_true fun hrule => ?_
    obtain ⟨excluded, hexcludes, hin⟩ := (Effect.excluded_of_ofEntry hex).1 hrule
    rw [h j e excluded hj he hexcludes] at hin
    cases hin
  · intro h j e excluded hj he hexcludes
    obtain ⟨x, hx, hex⟩ := exists_result_of_mapM_eq_ok hxs he
    refine eq_false_of_ne_true fun hrule => ?_
    have hin := (Effect.excluded_of_ofEntry hex).2 ⟨excluded, hexcludes, hrule⟩
    rw [h j x hj hx] at hin
    cases hin

/-- What stands at a place has survived there. -/
theorem standsAt_iff {xs : List Effect} (hxs : es.mapM (Effect.ofEntry sets (collect sets)) = .ok xs)
    {rule : Rule} {place : Nat ×ₗ Nat} : StandsAt flagNames sets es rule place ↔
      ∃ r, (place, r) ∈ Effect.surviving 0 xs ∧ r.serial = rule.serial := by
  obtain ⟨i, k⟩ := place
  have hsurviving (r : Rule) : (toLex (i, k), r) ∈ Effect.surviving 0 xs ↔
      ∃ x, xs[i]? = some x ∧ x.included[k]? = some r ∧
        ∀ (j : Nat) (x' : Effect), i < j → xs[j]? = some x' → r.isIn x'.excluded = false := by
    rw [← Effect.mem_surviving, Nat.zero_add]
  constructor
  · rintro ⟨e, rules, r, he, hincludes, hr, hserial, hkept⟩
    obtain ⟨x, hx, hex⟩ := exists_result_of_mapM_eq_ok hxs he
    have hincluded := (Effect.included_of_ofEntry hex).2 ⟨rules, hincludes, hr⟩
    refine ⟨r, (hsurviving r).2 ⟨x, hx, hincluded, ?_⟩, hserial⟩
    intro j x' hj hx'
    rw [Rule.isIn_congr hserial]
    exact (forall_excludes_iff hxs).1 hkept j x' hj hx'
  · rintro ⟨r, hr, hserial⟩
    obtain ⟨x, hx, hincluded, hkept⟩ := (hsurviving r).1 hr
    obtain ⟨e, he, hex⟩ := exists_of_mapM_eq_ok hxs hx
    obtain ⟨rules, hincludes, hrules⟩ := (Effect.included_of_ofEntry hex).1 hincluded
    refine ⟨e, rules, r, he, hincludes, hrules, hserial, (forall_excludes_iff hxs).2 ?_⟩
    intro j x' hj hx'
    rw [← Rule.isIn_congr hserial]
    exact hkept j x' hj hx'

theorem standsFirstAt_iff {xs : List Effect}
    (hxs : es.mapM (Effect.ofEntry sets (collect sets)) = .ok xs) {rule : Rule} {place : Nat ×ₗ Nat} :
    StandsFirstAt flagNames sets es rule place ↔ Rule.IsFirst (Effect.surviving 0 xs) rule place := by
  unfold StandsFirstAt Rule.IsFirst
  simp only [standsAt_iff hxs]
  exact and_congr_right fun _ => ⟨fun h q r hr hserial => h q ⟨r, hr, hserial⟩,
    fun h q ⟨r, hr, hserial⟩ => h q r hr hserial⟩

/-- A rule stands somewhere if an entry includes it and no later entry excludes it. -/
theorem exists_standsAt_iff {rule : Rule} :
    (∃ place, StandsAt reserved sets es rule place) ↔ ∃ (i : Nat) (e : Entry) (included : List Rule),
      es[i]? = some e ∧ e.Includes reserved sets included ∧ rule.isIn included = true ∧
      ∀ (j : Nat) (e' : Entry) (excluded : List Rule), i < j → es[j]? = some e' →
        e'.Excludes reserved sets excluded → rule.isIn excluded = false := by
  constructor
  · rintro ⟨place, e, rules, r, he, hincludes, hr, hserial, hkept⟩
    exact ⟨_, e, rules, he, hincludes, Rule.isIn_iff.2 ⟨r, List.mem_of_getElem? hr, hserial⟩, hkept⟩
  · rintro ⟨i, e, rules, he, hincludes, hrule, hkept⟩
    obtain ⟨r, hmem, hserial⟩ := Rule.isIn_iff.1 hrule
    obtain ⟨k, hr⟩ := List.mem_iff_getElem?.1 hmem
    exact ⟨toLex (i, k), e, rules, r, he, hincludes, hr, hserial, hkept⟩

/-- Entries whose effects are known select the rules that survive, the first of each. -/
theorem lastMentionWins_of_effects {xs : List Effect}
    (hxs : es.mapM (Effect.ofEntry sets (collect sets)) = .ok xs) :
    LastMentionWins flagNames sets es (Rule.distinct ((Effect.surviving 0 xs).map Prod.snd)) where
  mem rule := by
    rw [← exists_standsAt_iff, Rule.isIn_distinct, Rule.isIn_iff]
    simp only [standsAt_iff hxs, List.mem_map, Prod.exists, exists_eq_right]
    exact ⟨fun ⟨r, ⟨p, hp⟩, hserial⟩ => ⟨p, r, hp, hserial⟩,
      fun ⟨p, r, hp, hserial⟩ => ⟨r, ⟨p, hp⟩, hserial⟩⟩
  nodup := Rule.nodup_distinct _
  ordered := by
    simp only [standsFirstAt_iff hxs]
    exact (Rule.pairwise_distinct (Effect.pairwise_surviving 0 xs)).2

/-- **The last mention wins.** If all sets that the entries mention are known, and so on, and none leads to
itself, then the rules of the selection are those that an entry includes and no later entry excludes, without
repetitions, in the order of their first inclusions after their last exclusions. -/
theorem collect_lastMentionWins (h : IsGrounded flagNames sets (.entries es)) :
    ∃ r, collect sets (.entries es) = .ok r ∧ LastMentionWins flagNames sets es r.rules := by
  obtain ⟨r, hr⟩ := exists_collect h
  obtain ⟨xs, hxs, rfl⟩ := exists_effects_of_collect (fun _ => Selection.noConfusion) hr
  have hrules := Effect.foldl_applyTo_fst 0 ([], .empty) xs
  rw [List.filter_nil, List.nil_append] at hrules
  refine ⟨_, hr, ?_⟩
  show LastMentionWins flagNames sets es (Rule.distinct (xs.foldl Effect.applyTo ([], .empty)).1)
  rw [hrules]
  exact lastMentionWins_of_effects hxs

/-- A rule that applies to nothing, with the given serial number. -/
def idle (serial : Nat) : Rule := ⟨serial, "idle", .excluding .anything, [], .node .list []⟩

/-- Sets of which one names the other two, which overlap. -/
def nestedSets : Table Selection :=
  ⟨[("low", .ruleset ⟨[idle 1, idle 2], .empty⟩), ("high", .ruleset ⟨[idle 2, idle 3], .empty⟩),
    ("all", .entries [.named "low", .named "HIGH"])]⟩

/-- `all, !low, low`: what comes back comes after what has stayed. -/
theorem collect_lastMentionWins_nested :
    IsGrounded flagNames nestedSets (.entries [.named "all", .named "!Low", .named "low"]) ∧
      ∃ r, collect nestedSets (.entries [.named "all", .named "!Low", .named "low"]) = .ok r ∧
        LastMentionWins flagNames nestedSets [.named "all", .named "!Low", .named "low"] r.rules := by
  have hruleset (r : Ruleset) : IsGrounded flagNames nestedSets (.ruleset r) := by
    refine .intro fun e he excluded name hmention => ?_
    cases List.mem_singleton.1 he
    cases hmention
  have hlow : IsGrounded flagNames nestedSets (.ruleset ⟨[idle 1, idle 2], .empty⟩) := hruleset _
  have hhigh : IsGrounded flagNames nestedSets (.ruleset ⟨[idle 2, idle 3], .empty⟩) := hruleset _
  have hmentions (text : String) (mention : Bool × String) (s : Selection)
      (hname : Entry.mention? flagNames (.named text) = some mention)
      (hlookup : lookup nestedSets mention.2 = .ok s) (hs : IsGrounded flagNames nestedSets s)
      (excluded : Bool) (name : String)
      (h : Entry.mention? flagNames (.named text) = some (excluded, name)) :
      ∃ s', lookup nestedSets name = .ok s' ∧ IsGrounded flagNames nestedSets s' := by
    cases hname.symm.trans h
    exact ⟨s, hlookup, hs⟩
  have hall : IsGrounded flagNames nestedSets (.entries [.named "low", .named "HIGH"]) :=
    .intro (List.forall_mem_cons.2 ⟨hmentions "low" (false, "low") _ (by decide) rfl hlow,
      List.forall_mem_singleton.2 (hmentions "HIGH" (false, "HIGH") _ (by decide) rfl hhigh)⟩)
  have h : IsGrounded flagNames nestedSets (.entries [.named "all", .named "!Low", .named "low"]) :=
    .intro (List.forall_mem_cons.2 ⟨hmentions "all" (false, "all") _ (by decide) rfl hall,
      List.forall_mem_cons.2 ⟨hmentions "!Low" (true, "Low") _ (by decide) rfl hlow,
        List.forall_mem_singleton.2 (hmentions "low" (false, "low") _ (by decide) rfl hlow)⟩⟩)
  exact ⟨h, collect_lastMentionWins h⟩

example : (collect nestedSets (.entries [.named "all", .named "!Low", .named "low"])).map
    (fun r => r.rules.map Rule.serial) = .ok [3, 1, 2] := by decide

/-- A set of one rule under the name of a display flag. -/
def flagNamedSets : Table Selection :=
  ⟨[("rowvector", .ruleset ⟨[idle 1], .empty⟩)]⟩

/-- Without reserved names the last mention does not win: the name of a display flag does not mean the set of
that name. -/
theorem not_lastMentionWins :
    IsGrounded [] flagNamedSets (.entries [.named "rowvector"]) ∧
      ¬∃ r, collect flagNamedSets (.entries [.named "rowvector"]) = .ok r ∧
        LastMentionWins [] flagNamedSets [.named "rowvector"] r.rules := by
  have hname : Entry.mention? [] (.named "rowvector") = some (false, "rowvector") := by decide
  constructor
  · refine .intro fun e he excluded name hmention => ?_
    cases List.mem_singleton.1 he
    cases hname.symm.trans hmention
    refine ⟨.ruleset ⟨[idle 1], .empty⟩, rfl, .intro fun e he excluded name hmention => ?_⟩
    cases List.mem_singleton.1 he
    cases hmention
  · rintro ⟨r, hr, hwins⟩
    have hrules : (collect flagNamedSets (.entries [.named "rowvector"])).map
        (fun r => r.rules.map Rule.serial) = .ok [] := by decide
    have hmentions : Entry.Mentions [] flagNamedSets (.named "rowvector") false ⟨[idle 1], .empty⟩ :=
      ⟨"rowvector", _, hname, rfl, rfl⟩
    have hin : (idle 1).isIn r.rules = true := by
      refine (hwins.mem (idle 1)).2 ⟨0, _, _, rfl, .set hmentions, rfl, fun j e excluded hj he => ?_⟩
      obtain ⟨j, rfl⟩ := Nat.exists_eq_succ_of_ne_zero hj.ne'
      cases he
    rw [hr] at hrules
    rw [List.map_eq_nil_iff.1 (Except.ok.inj hrules)] at hin
    cases hin

end Ruleset

end MathExpr
