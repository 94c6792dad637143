import MathExpr.Proofs.RuleEffects
import MathExpr.Proofs.Tables

/-!
# Rulesets by name and rulesets themselves

Whether a selection has the name of a ruleset or the ruleset itself does not matter for the rules, nor for the
order in which they come. It does matter for the display flags: a name brings along the flags that its ruleset
sets, and the ruleset itself does not. So these flags are set with the name, unless a later entry decides them,
and all others are the same (`Ruleset.collect_named`); without such flags the two are the same
(`Ruleset.collect_named_eq`).

The flags of a selection are those that the effects of its entries switch, the last one of each
(`Ruleset.find?_flags_ofEffects`). So a flag that is switched later does not depend on the entry in question, and
otherwise the entry decides.
-/

namespace MathExpr

/-! ### Flags of effects -/

namespace Effect

/-- The rules that are collected do not depend on the flags. -/
theorem foldl_applyTo_fst_congr {sofar sofar' : List Rule × Table Bool} (h : sofar.1 = sofar'.1)
    (xs : List Effect) : (xs.foldl applyTo sofar).1 = (xs.foldl applyTo sofar').1 := by
  induction xs generalizing sofar sofar' with
  | nil => exact h
  | cons x rest ih =>
      refine ih ?_
      unfold applyTo
      rw [h]

theorem foldl_applyTo_snd (sofar : List Rule × Table Bool) (xs : List Effect) :
    (xs.foldl applyTo sofar).2 = sofar.2.insertAll (xs.flatMap switched) := by
  induction xs generalizing sofar with
  | nil => rfl
  | cons x rest ih => rw [List.foldl_cons, ih, List.flatMap_cons, Table.insertAll_append, applyTo]

end Effect

/-! ### Flags of entries -/

/-- An entry switches a flag: it is its name, with or without an exclamation mark, or it names a set that sets
the flag. -/
inductive Entry.Switches (sets : Table Selection) : Entry → String → Bool → Prop
  | flag {s : String} (h : Ruleset.flagNames.contains (Text.lower (Ruleset.splitExclusion s).2) = true) :
    Switches sets (.named s) (Text.lower (Ruleset.splitExclusion s).2) (!(Ruleset.splitExclusion s).1)
  | set {s flag : String} {r : Ruleset} (h : (Entry.named s).Mentions Ruleset.flagNames sets false r)
    (hflag : (flag, true) ∈ r.flags.entries) : Switches sets (.named s) flag true

namespace Ruleset

variable {sets : Table Selection} {r : Ruleset} {e : Entry} {x : Effect} {flag : String} {on : Bool}

theorem mem_setFlags {flags : Table Bool} : (flag, on) ∈ setFlags flags ↔
    on = true ∧ (flag, true) ∈ flags.entries := by
  unfold setFlags
  rw [List.mem_filter]
  exact ⟨fun ⟨hmem, hon⟩ => ⟨hon, hon ▸ hmem⟩, fun ⟨hon, hmem⟩ => ⟨hon ▸ hmem, hon⟩⟩

/-- The effect of an entry is to switch what it switches. -/
theorem switched_of_ofEntry (h : Effect.ofEntry sets (collect sets) e = .ok x) :
    (flag, on) ∈ x.switched ↔ e.Switches sets flag on := by
  cases Effect.isOf_of_ofEntry h with
  | rule | ruleset => exact iff_of_false List.not_mem_nil nofun
  | flag hflag =>
      constructor
      · intro hmem
        cases List.mem_singleton.1 hmem
        exact .flag hflag
      · intro hswitches
        cases hswitches with
        | flag => exact List.mem_singleton_self _
        | set hmentions => exact absurd hmentions (Entry.not_mentions (Entry.mention?_eq_none_iff.2 hflag))
  | exclusion hmentions =>
      refine iff_of_false List.not_mem_nil fun hswitches => ?_
      cases hswitches with
      | flag hflag => exact Entry.not_mentions (Entry.mention?_eq_none_iff.2 hflag) hmentions
      | set hmentions' => cases (hmentions.unique hmentions').1
  | inclusion hmentions =>
      rw [mem_setFlags]
      constructor
      · rintro ⟨rfl, hflag⟩
        exact .set hmentions hflag
      · intro hswitches
        cases hswitches with
        | flag hflag => exact absurd hmentions (Entry.not_mentions (Entry.mention?_eq_none_iff.2 hflag))
        | set hmentions' hflag =>
            obtain ⟨-, rfl⟩ := hmentions.unique hmentions'
            exact ⟨rfl, hflag⟩

/-- Entries that do not switch a flag leave it. -/
theorem lookup_switched_eq_none_iff {es : List Entry} {xs : List Effect}
    (h : es.mapM (Effect.ofEntry sets (collect sets)) = .ok xs) :
    (xs.flatMap Effect.switched).reverse.lookup flag = none ↔
      ∀ e ∈ es, ∀ on, ¬e.Switches sets flag on := by
  rw [List.lookup_eq_none_iff]
  constructor
  · intro hnone e he on hswitches
    obtain ⟨i, hi⟩ := List.mem_iff_getElem?.1 he
    obtain ⟨x, hx, hex⟩ := exists_result_of_mapM_eq_ok h hi
    have hmem : (flag, on) ∈ xs.flatMap Effect.switched :=
      List.mem_flatMap.2 ⟨x, List.mem_of_getElem? hx, (switched_of_ofEntry hex).2 hswitches⟩
    exact bne_iff_ne.1 (hnone _ (List.mem_reverse.2 hmem)) rfl
  · rintro hnone ⟨flag', on⟩ hmem
    obtain ⟨x, hx, hmem⟩ := List.mem_flatMap.1 (List.mem_reverse.1 hmem)
    obtain ⟨i, hi⟩ := List.mem_iff_getElem?.1 hx
    obtain ⟨e, he, hex⟩ := exists_of_mapM_eq_ok h hi
    refine bne_iff_ne.2 fun heq => ?_
    change flag = flag' at heq
    subst heq
    exact hnone e (List.mem_of_getElem? he) on ((switched_of_ofEntry hex).1 hmem)

/-- A flag is as it has been switched last, and display flags that have not been switched are not set. -/
theorem find?_flags_ofEffects (xs : List Effect) (flag : String) :
    (ofEffects xs).flags.find? flag = ((xs.flatMap Effect.switched).reverse.lookup flag).or
      ((Table.ofList (flagNames.map fun f => (f, false))).find? flag) := by
  have hnodup : (Table.empty.insertAll (xs.flatMap Effect.switched)).keys.Nodup :=
    Table.nodup_keys_insertAll (t := .empty) List.nodup_nil _
  show (Table.insertAll _ (xs.foldl Effect.applyTo ([], .empty)).2.entries).find? flag = _
  rw [Effect.foldl_applyTo_snd, Table.find?_insertAll_entries _ hnodup, Table.find?_insertAll, Table.find?_empty,
    Option.or_none]

theorem lookup_setFlags (flags : Table Bool) (flag : String) :
    (setFlags flags).reverse.lookup flag = if (flag, true) ∈ flags.entries then some true else none := by
  cases hlookup : (setFlags flags).reverse.lookup flag with
  | none =>
      rw [List.lookup_eq_none_iff] at hlookup
      rw [if_neg fun hflag => ?_]
      exact bne_iff_ne.1 (hlookup _ (List.mem_reverse.2 (mem_setFlags.2 ⟨rfl, hflag⟩))) rfl
  | some on =>
      obtain ⟨before, after, hentries, -⟩ := List.lookup_eq_some_iff.1 hlookup
      have hmem : (flag, on) ∈ (setFlags flags).reverse := by
        rw [hentries]
        exact List.mem_append_right _ List.mem_cons_self
      obtain ⟨rfl, hflag⟩ := mem_setFlags.1 (List.mem_reverse.1 hmem)
      rw [if_pos hflag]

/-! ### A name in place of a ruleset -/

/-- Two outcomes are the same but for flags that are set in the first one: both fail alike, or both give the
same rules in the same order, and the flags that are not set so are the same. -/
inductive SameButSet (isSet : String → Prop) : Outcome Ruleset → Outcome Ruleset → Prop
  | error (e : Failure) : SameButSet isSet (.error e) (.error e)
  | ok {r r' : Ruleset} (hrules : r.rules = r'.rules)
    (hset : ∀ flag, isSet flag → r.flags.find? flag = some true)
    (hothers : ∀ flag, ¬isSet flag → r.flags.find? flag = r'.flags.find? flag) :
    SameButSet isSet (.ok r) (.ok r')

theorem SameButSet.map_find? {isSet : String → Prop} {o o' : Outcome Ruleset} (h : SameButSet isSet o o')
    (flag : String) (hflag : ¬isSet flag) :
    o.map (fun r => r.flags.find? flag) = o'.map fun r => r.flags.find? flag := by
  cases h with
  | error e => rfl
  | ok hrules hset hothers => exact congrArg Except.ok (hothers flag hflag)

variable {name : String} {before after : List Entry}

/-- What one effect among others switches counts if no later one switches the same. -/
theorem find?_flags_between (xs ys : List Effect) (x : Effect) (flag : String) :
    (ofEffects (xs ++ x :: ys)).flags.find? flag =
      ((ys.flatMap Effect.switched).reverse.lookup flag).or ((x.switched.reverse.lookup flag).or
        ((ofEffects xs).flags.find? flag)) := by
  rw [find?_flags_ofEffects, find?_flags_ofEffects, List.flatMap_append, List.flatMap_cons, List.reverse_append,
    List.reverse_append, List.lookup_append, List.lookup_append, Option.or_assoc, Option.or_assoc]

/-- An effect that sets flags differs from one that does not in the flags that are not switched later. -/
theorem sameButSet_setFlags (xs ys : List Effect) (rules : List Rule) (flags : Table Bool) :
    SameButSet
      (fun flag => (flag, true) ∈ flags.entries ∧ (ys.flatMap Effect.switched).reverse.lookup flag = none)
      (.ok (ofEffects (xs ++ ⟨[], rules, setFlags flags⟩ :: ys)))
      (.ok (ofEffects (xs ++ ⟨[], rules, []⟩ :: ys))) := by
  refine .ok ?_ (fun flag hset => ?_) fun flag hset => ?_
  · refine congrArg Rule.distinct ?_
    rw [List.foldl_append, List.foldl_append, List.foldl_cons, List.foldl_cons]
    refine Effect.foldl_applyTo_fst_congr ?_ ys
    rfl
  · rw [find?_flags_between, hset.2, lookup_setFlags, if_pos hset.1]
    rfl
  · rw [find?_flags_between, find?_flags_between, lookup_setFlags]
    cases hlast : (ys.flatMap Effect.switched).reverse.lookup flag with
    | some on => rfl
    | none =>
        rw [if_neg fun hflag => hset ⟨hflag, hlast⟩]
        rfl

theorem ofEntry_named (hname : (Entry.named name).mention? flagNames = some (false, name))
    (hlookup : lookup sets name = .ok (.ruleset r)) (depth : Nat) :
    Effect.ofEntry sets (collectWith sets depth) (.named name) = .ok ⟨[], r.rules, setFlags r.flags⟩ := by
  rw [Effect.ofEntry_of_mention hname, hlookup]
  show collectWith sets depth (.ruleset r) >>= _ = _
  rw [collectWith_ruleset]
  rfl

/-- **A ruleset by name.** In place of the ruleset that it stands for a name makes no difference for the rules.
It sets the flags that the ruleset sets, if no later entry switches them, and makes no difference for the
others. -/
theorem collect_named (hname : (Entry.named name).mention? flagNames = some (false, name))
    (hlookup : lookup sets name = .ok (.ruleset r)) :
    SameButSet
      (fun flag => (flag, true) ∈ r.flags.entries ∧ ∀ e ∈ after, ∀ on, ¬e.Switches sets flag on)
      (collect sets (.entries (before ++ .named name :: after)))
      (collect sets (.entries (before ++ .ruleset r :: after))) := by
  have hgiven (depth : Nat) :
      Effect.ofEntry sets (collectWith sets depth) (.ruleset r) = .ok ⟨[], r.rules, []⟩ := rfl
  unfold collect
  rw [collectWith_succ_eq (fun _ => Selection.noConfusion), collectWith_succ_eq (fun _ => Selection.noConfusion),
    Selection.toEntries, Selection.toEntries, List.mapM_append, List.mapM_append, List.mapM_cons, List.mapM_cons,
    ofEntry_named hname hlookup, hgiven]
  cases before.mapM (Effect.ofEntry sets (collectWith sets sets.entries.length)) with
  | error e => exact .error e
  | ok xs =>
      cases hys : after.mapM (Effect.ofEntry sets (collectWith sets sets.entries.length)) with
      | error e => exact .error e
      | ok ys =>
          have hys' := mapM_eq_ok_mono (fun e y => Effect.ofEntry_mono fun s r => collectWith_succ) hys
          have hsame := sameButSet_setFlags xs ys r.rules r.flags
          simp only [lookup_switched_eq_none_iff hys'] at hsame
          exact hsame

/-- Without flags that are set the name and the ruleset are the same. -/
theorem collect_named_eq (hname : (Entry.named name).mention? flagNames = some (false, name))
    (hlookup : lookup sets name = .ok (.ruleset r)) (hflags : setFlags r.flags = []) :
    collect sets (.entries (before ++ .named name :: after)) =
      collect sets (.entries (before ++ .ruleset r :: after)) := by
  have hsame (depth : Nat) : Effect.ofEntry sets (collectWith sets depth) (.named name) =
      Effect.ofEntry sets (collectWith sets depth) (.ruleset r) := by
    rw [ofEntry_named hname hlookup, hflags]
    rfl
  unfold collect
  rw [collectWith_succ_eq (fun _ => Selection.noConfusion), collectWith_succ_eq (fun _ => Selection.noConfusion),
    Selection.toEntries, Selection.toEntries, List.mapM_append, List.mapM_append, List.mapM_cons, List.mapM_cons,
    hsame]

/-- A ruleset that sets a flag. -/
def fractional : Ruleset :=
  ⟨[⟨1, "idle", .excluding .anything, [], .node .list []⟩], ⟨[("fractionnumbers", true)]⟩⟩

/-- The ruleset has a name. -/
def fractionalSets : Table Selection := ⟨[("fractions", .ruleset fractional)]⟩

/-- `rowvector, Fractions, !rowvector`: the name sets a flag that the ruleset does not set. -/
theorem collect_named_fractional :
    (Entry.named "Fractions").mention? flagNames = some (false, "Fractions") ∧
      lookup fractionalSets "Fractions" = .ok (.ruleset fractional) ∧
      SameButSet (fun flag => (flag, true) ∈ fractional.flags.entries ∧
          ∀ e ∈ [Entry.named "!rowvector"], ∀ on, ¬e.Switches fractionalSets flag on)
        (collect fractionalSets (.entries [.named "rowvector", .named "Fractions", .named "!rowvector"]))
        (collect fractionalSets (.entries [.named "rowvector", .ruleset fractional, .named "!rowvector"])) := by
  have hname : (Entry.named "Fractions").mention? flagNames = some (false, "Fractions") := by decide
  refine ⟨hname, rfl, ?_⟩
  show SameButSet _ (collect fractionalSets (.entries ([.named "rowvector"] ++ _ :: _)))
    (collect fractionalSets (.entries ([.named "rowvector"] ++ _ :: _)))
  exact collect_named hname rfl

/-- The name and the ruleset that it stands for are not the same. -/
theorem collect_named_ne :
    (Entry.named "fractions").mention? flagNames = some (false, "fractions") ∧
      lookup fractionalSets "fractions" = .ok (.ruleset fractional) ∧
      ¬SameButSet (fun _ => False) (collect fractionalSets (.entries [.named "fractions"]))
        (collect fractionalSets (.entries [.ruleset fractional])) := by
  refine ⟨by decide, rfl, fun h => ?_⟩
  have hnamed : (collect fractionalSets (.entries [.named "fractions"])).map
      (fun r => r.flags.find? "fractionnumbers") = .ok (some true) := rfl
  have hgiven : (collect fractionalSets (.entries [.ruleset fractional])).map
      (fun r => r.flags.find? "fractionnumbers") = .ok (some false) := rfl
  have hsame := h.map_find? "fractionnumbers" not_false
  rw [hnamed, hgiven] at hsame
  cases hsame

end Ruleset

end MathExpr
