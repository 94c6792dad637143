import MathExpr.Proofs.Outcome
import MathExpr.Rule.Select

/-!
# What the entries of a selection do

Each entry does the same, or fails with the same, whatever has been collected (`Ruleset.addEntry_eq`). So a
selection is read entry by entry, and then the effects of the entries are applied one after the other
(`Ruleset.collectWith_succ_eq`).
-/

namespace MathExpr

/-! ### Effects -/

/-- What an entry does to the rules and flags that have been collected: it excludes some rules, includes
others after the rest, and switches flags. -/
structure Effect where
  excluded : List Rule
  included : List Rule
  switched : List (String × Bool)

namespace Effect

/-- What has been collected, after one more effect. -/
def applyTo (sofar : List Rule × Table Bool) (x : Effect) : List Rule × Table Bool :=
  (sofar.1.filter (fun r => !r.isIn x.excluded) ++ x.included, sofar.2.insertAll x.switched)

/-- What excludes nothing leaves the rules that have been collected. -/
theorem applyTo_including (sofar : List Rule × Table Bool) (rs : List Rule) (flags : List (String × Bool)) :
    applyTo sofar ⟨[], rs, flags⟩ = (sofar.1 ++ rs, sofar.2.insertAll flags) := by
  have hkeep : sofar.1.filter (fun r => !r.isIn []) = sofar.1 := List.filter_eq_self.2 fun _ _ => rfl
  rw [applyTo, hkeep]

theorem applyTo_excluding (sofar : List Rule × Table Bool) (rs : List Rule) :
    applyTo sofar ⟨rs, [], []⟩ = (sofar.1.filter (fun r => !r.isIn rs), sofar.2) := by
  rw [applyTo, List.append_nil]
  rfl

/-- The effect of an entry, where `collect` gives the ruleset of a selection. -/
def ofEntry (sets : Table Selection) (collect : Selection → Outcome Ruleset) : Entry → Outcome Effect
  | .rule r => return ⟨[], [r], []⟩
  | .ruleset r => return ⟨[], r.rules, []⟩
  | .named s => do
    let (excluded, name) := Ruleset.splitExclusion s
    if Ruleset.flagNames.contains (Text.lower name) then return ⟨[], [], [(Text.lower name, !excluded)]⟩
    else
      let r ← collect (← (Ruleset.lookup sets name).mapError .error)
      if excluded then return ⟨r.rules, [], []⟩ else return ⟨[], r.rules, Ruleset.setFlags r.flags⟩

end Effect

namespace Ruleset

variable {sets : Table Selection} {collect : Selection → Outcome Ruleset}

/-- What an entry does, or fails with, does not depend on what has been collected. -/
theorem addEntry_eq (sofar : List Rule × Table Bool) (e : Entry) :
    addEntry sets collect sofar e = (Effect.ofEntry sets collect e).map (Effect.applyTo sofar) := by
  cases e with
  | rule r => exact congrArg Except.ok (Effect.applyTo_including sofar [r] []).symm
  | ruleset r => exact congrArg Except.ok (Effect.applyTo_including sofar r.rules []).symm
  | named s =>
      unfold addEntry Effect.ofEntry
      dsimp only
      generalize (splitExclusion s).1 = excluded, (splitExclusion s).2 = name
      split
      · refine congrArg Except.ok ?_
        rw [Effect.applyTo_including, List.append_nil]
        rfl
      · cases (lookup sets name).mapError Failure.error with
        | error e => rfl
        | ok selection =>
            show collect selection >>= _ = Except.map _ (collect selection >>= _)
            cases collect selection with
            | error e => rfl
            | ok r =>
                cases excluded with
                | true => exact congrArg Except.ok (Effect.applyTo_excluding sofar r.rules).symm
                | false => exact congrArg Except.ok (Effect.applyTo_including sofar r.rules _).symm

theorem foldlM_addEntry_eq (sofar : List Rule × Table Bool) (es : List Entry) :
    es.foldlM (addEntry sets collect) sofar =
      (es.mapM (Effect.ofEntry sets collect)).map fun xs => xs.foldl Effect.applyTo sofar := by
  induction es generalizing sofar with
  | nil => rfl
  | cons e rest ih =>
      rw [List.foldlM_cons, List.mapM_cons, addEntry_eq]
      cases Effect.ofEntry sets collect e with
      | error e => rfl
      | ok x =>
          show rest.foldlM _ (Effect.applyTo sofar x) = Except.map _ (rest.mapM _ >>= _)
          rw [ih]
          cases rest.mapM (Effect.ofEntry sets collect) <;> rfl

end Ruleset

/-! ### Names of sets -/

namespace Entry

/-- The set that an entry mentions, and whether the entry excludes its rules. The reserved names stand for no
sets. -/
def mention? (reserved : List String) : Entry → Option (Bool × String)
  | named s =>
    let mention := Ruleset.splitExclusion s
    if reserved.contains (Text.lower mention.2) then none else some mention
  | _ => none

/-- A name that stands for no set is that of a display flag. -/
theorem mention?_eq_none_iff {s : String} : mention? Ruleset.flagNames (named s) = none ↔
    Ruleset.flagNames.contains (Text.lower (Ruleset.splitExclusion s).2) = true := by
  unfold mention?
  dsimp only
  split
  · exact iff_of_true rfl ‹_›
  · exact iff_of_false nofun ‹_›

end Entry

namespace Effect

variable {sets : Table Selection} {collect collect' : Selection → Outcome Ruleset} {e : Entry} {x : Effect}

/-- The effect of an entry that mentions a set. -/
theorem ofEntry_of_mention {excluded : Bool} {name : String}
    (h : e.mention? Ruleset.flagNames = some (excluded, name)) :
    ofEntry sets collect e = (do
      let r ← collect (← (Ruleset.lookup sets name).mapError .error)
      if excluded then return ⟨r.rules, [], []⟩ else return ⟨[], r.rules, Ruleset.setFlags r.flags⟩) := by
  cases e with
  | named s =>
      unfold Entry.mention? at h
      unfold ofEntry
      dsimp only at h ⊢
      split at h
      · cases h
      · rw [if_neg ‹_›]
        have hmention := Option.some.inj h
        rw [hmention]
  | _ => cases h

/-- An entry that mentions no set has an effect whatever names stand for. -/
theorem exists_ofEntry_of_mention_eq_none (sets : Table Selection)
    (h : e.mention? Ruleset.flagNames = none) :
    ∃ x, ∀ collect, ofEntry sets collect e = .ok x := by
  cases e with
  | rule r => exact ⟨_, fun _ => rfl⟩
  | ruleset r => exact ⟨_, fun _ => rfl⟩
  | named s =>
      refine ⟨⟨[], [], [(Text.lower (Ruleset.splitExclusion s).2, !(Ruleset.splitExclusion s).1)]⟩,
        fun collect => ?_⟩
      unfold ofEntry
      dsimp only
      rw [if_pos (Entry.mention?_eq_none_iff.1 h)]
      rfl

theorem ofEntry_mono (h : ∀ s r, collect s = .ok r → collect' s = .ok r)
    (hx : ofEntry sets collect e = .ok x) : ofEntry sets collect' e = .ok x := by
  cases hmention : e.mention? Ruleset.flagNames with
  | none =>
      obtain ⟨x', hx'⟩ := exists_ofEntry_of_mention_eq_none sets hmention
      rw [hx'] at hx ⊢
      exact hx
  | some mention =>
      rw [ofEntry_of_mention hmention] at hx ⊢
      obtain ⟨s, hs, hx⟩ := exists_of_bind_eq_ok hx
      obtain ⟨r, hr, hx⟩ := exists_of_bind_eq_ok hx
      rw [hs]
      show collect' s >>= _ = _
      rw [h s r hr]
      exact hx

end Effect

namespace Ruleset

/-- The ruleset of effects that are applied one after the other. -/
def ofEffects (xs : List Effect) : Ruleset :=
  make (xs.foldl Effect.applyTo ([], .empty)).1 (xs.foldl Effect.applyTo ([], .empty)).2

variable {sets : Table Selection} {s : Selection} {depth : Nat} {r : Ruleset}

/-- The ruleset of a selection that is not one itself. -/
theorem collectWith_succ_eq (hs : ∀ r, s ≠ .ruleset r) (depth : Nat) :
    collectWith sets (depth + 1) s =
      (s.toEntries.mapM (Effect.ofEntry sets (collectWith sets depth))).map ofEffects := by
  have hloop : collectWith sets (depth + 1) s =
      s.toEntries.foldlM (addEntry sets (collectWith sets depth)) ([], .empty) >>= fun collected =>
        pure (make collected.1 collected.2) := by
    cases s with
    | ruleset r => exact absurd rfl (hs r)
    | _ => rfl
  rw [hloop, foldlM_addEntry_eq]
  cases s.toEntries.mapM (Effect.ofEntry sets (collectWith sets depth)) <;> rfl

theorem collectWith_ruleset (depth : Nat) (r : Ruleset) : collectWith sets depth (.ruleset r) = .ok r := by
  cases depth <;> rfl

/-- What is collected is collected with more depth. -/
theorem collectWith_succ (h : collectWith sets depth s = .ok r) : collectWith sets (depth + 1) s = .ok r := by
  induction depth generalizing s r with
  | zero =>
      cases s with
      | ruleset r' => exact h
      | _ => cases h
  | succ depth ih =>
      by_cases hs : ∃ r', s = .ruleset r'
      · obtain ⟨r', rfl⟩ := hs
        exact h
      · have hs' : ∀ r', s ≠ .ruleset r' := fun r' heq => hs ⟨r', heq⟩
        rw [collectWith_succ_eq hs'] at h ⊢
        cases hxs : s.toEntries.mapM (Effect.ofEntry sets (collectWith sets depth)) with
        | error e =>
            rw [hxs] at h
            cases h
        | ok xs =>
            rw [hxs] at h
            rw [mapM_eq_ok_mono (fun e x => Effect.ofEntry_mono fun s r => ih) hxs]
            exact h

/-- What is collected comes from the effects of the entries. -/
theorem exists_effects_of_collect (hs : ∀ r, s ≠ .ruleset r) (h : collect sets s = .ok r) :
    ∃ xs, s.toEntries.mapM (Effect.ofEntry sets (collect sets)) = .ok xs ∧ r = ofEffects xs := by
  unfold collect at h
  rw [collectWith_succ_eq hs] at h
  cases hxs : s.toEntries.mapM (Effect.ofEntry sets (collectWith sets sets.entries.length)) with
  | error e =>
      rw [hxs] at h
      cases h
  | ok xs =>
      rw [hxs] at h
      cases h
      exact ⟨xs, mapM_eq_ok_mono (fun e x => Effect.ofEntry_mono fun s r => collectWith_succ) hxs, rfl⟩

end Ruleset

namespace Entry

variable {reserved : List String} {sets : Table Selection} {e : Entry}

/-- An entry mentions a set, with or without an exclamation mark, and the set comes to a ruleset. -/
def Mentions (reserved : List String) (sets : Table Selection) (e : Entry) (excluded : Bool) (r : Ruleset) :
    Prop :=
  ∃ name s, e.mention? reserved = some (excluded, name) ∧ Ruleset.lookup sets name = .ok s ∧
    Ruleset.collect sets s = .ok r

theorem Mentions.unique {excluded excluded' : Bool} {r r' : Ruleset}
    (h : e.Mentions reserved sets excluded r) (h' : e.Mentions reserved sets excluded' r') :
    excluded = excluded' ∧ r = r' := by
  obtain ⟨name, s, hmention, hlookup, hcollect⟩ := h
  obtain ⟨name', s', hmention', hlookup', hcollect'⟩ := h'
  cases hmention.symm.trans hmention'
  cases hlookup.symm.trans hlookup'
  cases hcollect.symm.trans hcollect'
  exact ⟨rfl, rfl⟩

theorem not_mentions (h : e.mention? reserved = none) {excluded : Bool} {r : Ruleset} :
    ¬e.Mentions reserved sets excluded r := by
  rintro ⟨name, s, hmention, -⟩
  cases h.symm.trans hmention

end Entry

namespace Effect

open Ruleset

variable {sets : Table Selection} {e : Entry} {x : Effect}

/-- What an entry can do. -/
inductive IsOf (sets : Table Selection) : Entry → Effect → Prop
  | rule {r : Rule} : IsOf sets (.rule r) ⟨[], [r], []⟩
  | ruleset {r : Ruleset} : IsOf sets (.ruleset r) ⟨[], r.rules, []⟩
  | flag {s : String} (h : flagNames.contains (Text.lower (splitExclusion s).2) = true) :
    IsOf sets (.named s) ⟨[], [], [(Text.lower (splitExclusion s).2, !(splitExclusion s).1)]⟩
  | exclusion {s : String} {r : Ruleset} (h : (Entry.named s).Mentions flagNames sets true r) :
    IsOf sets (.named s) ⟨r.rules, [], []⟩
  | inclusion {s : String} {r : Ruleset} (h : (Entry.named s).Mentions flagNames sets false r) :
    IsOf sets (.named s) ⟨[], r.rules, setFlags r.flags⟩

theorem isOf_of_ofEntry (h : ofEntry sets (collect sets) e = .ok x) : IsOf sets e x := by
  cases e with
  | rule r =>
      cases h
      exact .rule
  | ruleset r =>
      cases h
      exact .ruleset
  | named s =>
      cases hmention : (Entry.named s).mention? flagNames with
      | none =>
          have hflag := Entry.mention?_eq_none_iff.1 hmention
          unfold ofEntry at h
          dsimp only at h
          rw [if_pos hflag] at h
          cases h
          exact .flag hflag
      | some mention =>
          obtain ⟨excluded, name⟩ := mention
          rw [ofEntry_of_mention hmention] at h
          obtain ⟨s', hs', h⟩ := exists_of_bind_eq_ok h
          obtain ⟨r, hr, h⟩ := exists_of_bind_eq_ok h
          have hmentions : (Entry.named s).Mentions flagNames sets excluded r :=
            ⟨name, s', hmention, eq_ok_of_mapError hs', hr⟩
          cases excluded with
          | true =>
              cases h
              exact .exclusion hmentions
          | false =>
              cases h
              exact .inclusion hmentions

end Effect

end MathExpr
