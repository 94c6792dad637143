import MathExpr.Table

/-!
# What a table holds

What the operations on tables do to the entry of a key: `erase` takes one away, `mapEntries` changes all of
them, and after `insertAll` the last entry that has been put in under a key is found there
(`Table.find?_insertAll`). The keys of a table that is built by putting entries in differ, so that it does not
matter in which order they are put into another one (`Table.find?_insertAll_entries`). Where entries are not
put in but combined with what is under their key already (`Table.gather`), a table that has been gathered may
be gathered in place of its entries (`Table.gather_entries_gather`), if combining is associative.
-/

namespace MathExpr

namespace Table

variable {α : Type}

theorem lookup_filter (key k : String) (entries : List (String × α)) :
    (entries.filter fun e => e.1 != key).lookup k =
      if k = key then none else entries.lookup k := by
  induction entries with
  | nil => simp
  | cons e rest ih =>
      obtain ⟨x, a⟩ := e
      by_cases hx : x = key
      · subst hx
        rw [List.filter_cons_of_neg (by simp), ih, List.lookup_cons]
        by_cases hk : k = x
        · simp [hk]
        · simp [hk, beq_eq_false_iff_ne.2 hk]
      · rw [List.filter_cons_of_pos (by simpa using hx), List.lookup_cons, List.lookup_cons, ih]
        by_cases hk : k = x
        · subst hk
          simp [hx]
        · simp [beq_eq_false_iff_ne.2 hk]

/-- An entry that is taken out is gone, and the others stay as they are. -/
theorem find?_erase (t : Table α) (key k : String) :
    (t.erase key).find? k = if k = key then none else t.find? k :=
  lookup_filter key k t.entries

theorem find?_mapEntries {β : Type} (f : α → β) (t : Table α) (k : String) :
    (t.mapEntries f).find? k = (t.find? k).map f := by
  obtain ⟨entries⟩ := t
  show (entries.map fun e => (e.1, f e.2)).lookup k = (entries.lookup k).map f
  induction entries with
  | nil => rfl
  | cons e rest ih =>
      rw [List.map_cons, List.lookup_cons, List.lookup_cons, ih]
      cases k == e.1 <;> rfl

theorem mem_keys {t : Table α} {k : String} : k ∈ t.keys ↔ ∃ a, t.find? k = some a := by
  obtain ⟨entries⟩ := t
  show k ∈ entries.map Prod.fst ↔ ∃ a, entries.lookup k = some a
  induction entries with
  | nil => simp
  | cons e rest ih =>
      rw [List.map_cons, List.mem_cons, ih, List.lookup_cons]
      by_cases hk : k = e.1
      · simp [hk]
      · simp [hk, beq_eq_false_iff_ne.2 hk]

theorem mem_insertInto {key : String} {a : α} {e : String × α} {entries : List (String × α)}
    (h : e ∈ insertInto key a entries) : e ∈ entries ∨ e = (key, a) := by
  induction entries with
  | nil => exact .inr (List.mem_singleton.1 h)
  | cons e' rest ih =>
      obtain ⟨k, b⟩ := e'
      unfold insertInto at h
      split at h
      · rcases List.mem_cons.1 h with rfl | h
        · exact .inr rfl
        · exact .inl (List.mem_cons_of_mem _ h)
      · rcases List.mem_cons.1 h with rfl | h
        · exact .inl List.mem_cons_self
        · rcases ih h with h | h
          · exact .inl (List.mem_cons_of_mem _ h)
          · exact .inr h

theorem mem_of_find?_eq_some {t : Table α} {key : String} {a : α} (h : t.find? key = some a) :
    (key, a) ∈ t.entries := by
  obtain ⟨entries⟩ := t
  change entries.lookup key = some a at h
  induction entries with
  | nil => cases h
  | cons e rest ih =>
      obtain ⟨k, b⟩ := e
      rw [List.lookup_cons] at h
      by_cases hk : key = k
      · rw [beq_iff_eq.2 hk] at h
        cases h
        rw [hk]
        exact List.mem_cons_self
      · rw [beq_eq_false_iff_ne.2 hk] at h
        exact List.mem_cons_of_mem _ (ih h)

/-! ### Keys -/

/-- Some keys and one more, at the end if it is new. -/
def addKey (key : String) (keys : List String) : List String :=
  if key ∈ keys then keys else keys ++ [key]

theorem nodup_addKey {key : String} {keys : List String} (h : keys.Nodup) : (addKey key keys).Nodup := by
  unfold addKey
  split
  · exact h
  · rename_i hkey
    refine List.nodup_append.2 ⟨h, List.nodup_cons.2 ⟨List.not_mem_nil, List.nodup_nil⟩, ?_⟩
    intro k hk k' hk' heq
    exact hkey (List.mem_singleton.1 hk' ▸ heq ▸ hk)

theorem keys_insert (t : Table α) (key : String) (a : α) : (t.insert key a).keys = addKey key t.keys := by
  obtain ⟨entries⟩ := t
  show (insertInto key a entries).map Prod.fst = addKey key (entries.map Prod.fst)
  unfold addKey
  induction entries with
  | nil => rfl
  | cons e rest ih =>
      obtain ⟨k, b⟩ := e
      unfold insertInto
      by_cases hk : k = key
      · subst hk
        simp
      · rw [if_neg hk, List.map_cons, ih, List.map_cons]
        by_cases hkey : key ∈ rest.map Prod.fst
        · rw [if_pos hkey, if_pos (List.mem_cons_of_mem k hkey)]
        · rw [if_neg hkey, if_neg (List.not_mem_cons_of_ne_of_not_mem (Ne.symm hk) hkey)]
          rfl

/-- A table whose keys differ has under each key what is found there. -/
theorem entries_eq_of_nodup {t : Table α} (h : t.keys.Nodup) {f : String → α}
    (hf : ∀ key ∈ t.keys, t.find? key = some (f key)) : t.entries = t.keys.map fun key => (key, f key) := by
  obtain ⟨entries⟩ := t
  change (entries.map Prod.fst).Nodup at h
  change ∀ key ∈ entries.map Prod.fst, entries.lookup key = some (f key) at hf
  show entries = (entries.map Prod.fst).map fun key => (key, f key)
  induction entries with
  | nil => rfl
  | cons e rest ih =>
      obtain ⟨k, a⟩ := e
      obtain ⟨hk, hrest⟩ := List.nodup_cons.1 h
      have ha : a = f k := by
        have hfind := hf k List.mem_cons_self
        rw [List.lookup_cons, beq_self_eq_true] at hfind
        exact Option.some.inj hfind
      have hothers : ∀ key ∈ rest.map Prod.fst, rest.lookup key = some (f key) := by
        intro key hkey
        have hfind := hf key (List.mem_cons_of_mem k hkey)
        have hne : key ≠ k := fun heq => hk (heq ▸ hkey)
        rwa [List.lookup_cons, beq_eq_false_iff_ne.2 hne] at hfind
      rw [List.map_cons, List.map_cons, ← ih hrest hothers, ha]

/-! ### Gathering -/

/-- The table with the entries of a list, each combined with what is under its key already. -/
def gather (combine : Option α → α → α) (t : Table α) (entries : List (String × α)) : Table α :=
  entries.foldl (fun t e => t.insert e.1 (combine (t.find? e.1) e.2)) t

theorem ext_entries {t t' : Table α} (h : t.entries = t'.entries) : t = t' := by
  cases t
  cases h
  rfl

theorem insertInto_insertInto (key : String) (a b : α) (entries : List (String × α)) :
    insertInto key a (insertInto key b entries) = insertInto key a entries := by
  induction entries with
  | nil => simp [insertInto]
  | cons e rest ih =>
      obtain ⟨k, c⟩ := e
      by_cases hk : k = key
      · simp [insertInto, hk]
      · simp [insertInto, hk, ih]

theorem insertInto_comm {key key' : String} (hne : key ≠ key') (a b : α) {entries : List (String × α)}
    (hkey : key ∈ entries.map Prod.fst) :
    insertInto key a (insertInto key' b entries) = insertInto key' b (insertInto key a entries) := by
  induction entries with
  | nil => cases hkey
  | cons e rest ih =>
      obtain ⟨k, c⟩ := e
      by_cases hk : k = key
      · subst hk
        simp [insertInto, hne]
      · by_cases hk' : k = key'
        · subst hk'
          simp [insertInto, Ne.symm hne]
        · have hrest : key ∈ rest.map Prod.fst := by
            rcases List.mem_cons.1 hkey with heq | hrest
            · exact absurd heq.symm hk
            · exact hrest
          simp [insertInto, hk, hk', ih hrest]

section

variable {combine : Option α → α → α} {t : Table α} {key : String}

/-- What is under a key does not change unless an entry comes for it. -/
theorem find?_gather {entries : List (String × α)} (h : key ∉ entries.map Prod.fst) :
    (t.gather combine entries).find? key = t.find? key := by
  induction entries generalizing t with
  | nil => rfl
  | cons e rest ih =>
      obtain ⟨hne, hrest⟩ := not_or.1 ((not_congr List.mem_cons).1 h)
      refine (ih hrest).trans ?_
      rw [find?_insert, if_neg hne]

/-- An entry that replaces another may be put in first, if no entry comes for its key. -/
theorem insert_gather {entries : List (String × α)} (h : key ∉ entries.map Prod.fst) (ht : key ∈ t.keys)
    (a : α) : (t.gather combine entries).insert key a = (t.insert key a).gather combine entries := by
  induction entries generalizing t with
  | nil => rfl
  | cons e rest ih =>
      obtain ⟨hne, hrest⟩ := not_or.1 ((not_congr List.mem_cons).1 h)
      have hkey : key ∈ (t.insert e.1 (combine (t.find? e.1) e.2)).keys := by
        rw [keys_insert]
        unfold addKey
        split
        · exact ht
        · exact List.mem_append_left _ ht
      refine (ih hrest hkey).trans ?_
      show gather combine ((t.insert e.1 _).insert key a) rest =
        gather combine ((t.insert key a).insert e.1 (combine ((t.insert key a).find? e.1) e.2)) rest
      rw [find?_insert, if_neg (Ne.symm hne)]
      exact congrArg (gather combine · rest) (ext_entries (insertInto_comm hne _ _ ht))

/-- Combining is associative, and does not depend on whether the first of all has been combined with nothing.
-/
structure Combines (combine : Option α → α → α) : Prop where
  none : ∀ x a, combine x (combine Option.none a) = combine x a
  some : ∀ x a b, combine x (combine (Option.some a) b) = combine (Option.some (combine x a)) b

/-- One more entry is gathered after the others. -/
theorem gather_insertInto (hcombine : Combines combine) {entries : List (String × α)}
    (hnodup : (entries.map Prod.fst).Nodup) (a : α) :
    t.gather combine (insertInto key (combine (entries.lookup key) a) entries) =
      (t.gather combine entries).insert key (combine ((t.gather combine entries).find? key) a) := by
  induction entries generalizing t with
  | nil => exact congrArg (t.insert key) (hcombine.none _ a)
  | cons e rest ih =>
      obtain ⟨k, b⟩ := e
      obtain ⟨hk, hrest⟩ := List.nodup_cons.1 hnodup
      show gather combine t (insertInto key (combine (((k, b) :: rest).lookup key) a) ((k, b) :: rest)) =
        (gather combine (t.insert k (combine (t.find? k) b)) rest).insert key
          (combine ((gather combine (t.insert k (combine (t.find? k) b)) rest).find? key) a)
      rw [List.lookup_cons]
      by_cases heq : key = k
      · -- no other entry has this key, so that its place may be filled at once
        subst heq
        have hfind : (t.insert key (combine (t.find? key) b)).find? key = some (combine (t.find? key) b) :=
          (find?_insert _ _ _ _).trans (if_pos rfl)
        rw [find?_gather hk, hfind, insert_gather hk (mem_keys.2 ⟨_, hfind⟩), beq_self_eq_true, insertInto,
          if_pos rfl]
        show gather combine (t.insert key (combine (t.find? key) (combine (some b) a))) rest = _
        rw [hcombine.some]
        exact congrArg (gather combine · rest) (ext_entries (insertInto_insertInto key _ _ _).symm)
      · rw [beq_eq_false_iff_ne.2 heq, insertInto, if_neg (Ne.symm heq)]
        exact ih hrest

theorem nodup_keys_gather (combine : Option α → α → α) (ht : t.keys.Nodup) (entries : List (String × α)) :
    (t.gather combine entries).keys.Nodup := by
  induction entries generalizing t with
  | nil => exact ht
  | cons e rest ih =>
      refine ih (t := t.insert e.1 _) ?_
      rw [keys_insert]
      exact nodup_addKey ht

/-- What has been gathered may be gathered as a whole. -/
theorem gather_entries_gather (hcombine : Combines combine) (t : Table α) {t' : Table α} (ht' : t'.keys.Nodup)
    (entries : List (String × α)) :
    t.gather combine (t'.gather combine entries).entries =
      (t.gather combine t'.entries).gather combine entries := by
  induction entries generalizing t' with
  | nil => rfl
  | cons e rest ih =>
      have hnodup : (t'.insert e.1 (combine (t'.find? e.1) e.2)).keys.Nodup := by
        rw [keys_insert]
        exact nodup_addKey ht'
      refine (ih hnodup).trans ?_
      exact congrArg (gather combine · rest) (gather_insertInto hcombine ht' e.2)

/-- What holds of the keys of all entries holds of the keys of the table that they are gathered in. -/
theorem forall_keys_gather (combine : Option α → α → α) {P : String → Prop}
    {entries : List (String × α)} (ht : ∀ k ∈ t.keys, P k) (hentries : ∀ e ∈ entries, P e.1) :
    ∀ k ∈ (t.gather combine entries).keys, P k := by
  induction entries generalizing t with
  | nil => exact ht
  | cons e rest ih =>
      obtain ⟨he, hrest⟩ := List.forall_mem_cons.1 hentries
      refine ih (t := t.insert e.1 _) (fun k hk => ?_) hrest
      rw [keys_insert] at hk
      unfold addKey at hk
      split at hk
      · exact ht k hk
      · rcases List.mem_append.1 hk with hk | hk
        · exact ht k hk
        · exact List.mem_singleton.1 hk ▸ he

end

/-! ### Entries that are put in together -/

/-- Putting entries in is gathering them, where each replaces the one before. -/
theorem combines_replace : Combines fun (_ : Option α) a => a where
  none _ _ := rfl
  some _ _ _ := rfl

theorem nodup_keys_insertAll {t : Table α} (h : t.keys.Nodup) (entries : List (String × α)) :
    (t.insertAll entries).keys.Nodup :=
  nodup_keys_gather (fun _ a => a) h entries

theorem insertAll_append (t : Table α) (entries entries' : List (String × α)) :
    t.insertAll (entries ++ entries') = (t.insertAll entries).insertAll entries' := List.foldl_append

/-- The last entry that is put in under a key is found there. -/
theorem find?_insertAll (t : Table α) (entries : List (String × α)) (k : String) :
    (t.insertAll entries).find? k = (entries.reverse.lookup k).or (t.find? k) := by
  induction entries generalizing t with
  | nil => rfl
  | cons e rest ih =>
      show ((t.insert e.1 e.2).insertAll rest).find? k = _
      rw [ih, find?_insert, List.reverse_cons, List.lookup_append, Option.or_assoc]
      congr 1
      rw [List.lookup_cons]
      by_cases hk : k = e.1
      · rw [if_pos hk, beq_iff_eq.2 hk]
        rfl
      · rw [if_neg hk, beq_eq_false_iff_ne.2 hk]
        rfl

/-- Tables with the same entry keep it when entries are put in. -/
theorem find?_insertAll_congr {t t' : Table α} {k : String} (h : t.find? k = t'.find? k)
    (entries : List (String × α)) : (t.insertAll entries).find? k = (t'.insertAll entries).find? k := by
  rw [find?_insertAll, find?_insertAll, h]

/-- Of two tables put together the second counts, where it has an entry. -/
theorem find?_insertAll_entries (t : Table α) {t' : Table α} (h : t'.keys.Nodup) (k : String) :
    (t.insertAll t'.entries).find? k = (t'.find? k).or (t.find? k) := by
  obtain ⟨entries⟩ := t'
  change (entries.map Prod.fst).Nodup at h
  show (t.insertAll entries).find? k = (entries.lookup k).or (t.find? k)
  induction entries generalizing t with
  | nil => rfl
  | cons e rest ih =>
      obtain ⟨key, a⟩ := e
      obtain ⟨hkey, hrest⟩ := List.nodup_cons.1 h
      show ((t.insert key a).insertAll rest).find? k = _
      rw [ih _ hrest, find?_insert, List.lookup_cons]
      by_cases hk : k = key
      · -- the key is not among the others
        have hnone : rest.lookup k = none :=
          List.lookup_eq_none_iff.2 fun e he => bne_iff_ne.2 fun heq =>
            hkey (List.mem_map.2 ⟨e, he, (hk.symm.trans heq).symm⟩)
        rw [if_pos hk, beq_iff_eq.2 hk, hnone]
        rfl
      · rw [if_neg hk, beq_eq_false_iff_ne.2 hk]

theorem find?_insertAll_filterMap (t : Table α) (f : String → Option α) (keys : List String)
    (k : String) :
    (t.insertAll (keys.filterMap fun n => (f n).map fun a => (n, a))).find? k =
      if k ∈ keys then (f k).or (t.find? k) else t.find? k := by
  induction keys generalizing t with
  | nil => rfl
  | cons n rest ih =>
      cases hf : f n with
      | none =>
          have hrest : (n :: rest).filterMap (fun n => (f n).map fun a => (n, a)) =
              rest.filterMap fun n => (f n).map fun a => (n, a) := by simp [hf]
          rw [hrest, ih]
          by_cases hk : k = n <;> simp [hk, hf]
      | some a =>
          have hrest : t.insertAll ((n :: rest).filterMap fun n => (f n).map fun a => (n, a)) =
              (t.insert n a).insertAll (rest.filterMap fun n => (f n).map fun a => (n, a)) := by
            simp [insertAll, hf]
          rw [hrest, ih, find?_insert]
          by_cases hk : k = n <;> simp [hk, hf]

/-- The table of the entries that some keys have. -/
theorem find?_ofList_filterMap (f : String → Option α) (keys : List String) (k : String) :
    (ofList (keys.filterMap fun n => (f n).map fun a => (n, a))).find? k =
      if k ∈ keys then f k else none := by
  rw [ofList, find?_insertAll_filterMap, find?_empty, Option.or_none]

section

variable {P : α → Prop} {t : Table α} {entries : List (String × α)} {key : String}

theorem forall_mem_insertAll (ht : ∀ e ∈ t.entries, P e.2) (hentries : ∀ e ∈ entries, P e.2) :
    ∀ e ∈ (t.insertAll entries).entries, P e.2 := by
  induction entries generalizing t with
  | nil => exact ht
  | cons e rest ih =>
      obtain ⟨he, hrest⟩ := List.forall_mem_cons.1 hentries
      refine ih (fun e' he' => ?_) hrest
      rcases mem_insertInto he' with he' | rfl
      · exact ht e' he'
      · exact he

theorem of_find?_insertAll (ht : ∀ a, t.find? key = some a → P a) (hentries : ∀ e ∈ entries, P e.2) :
    ∀ a, (t.insertAll entries).find? key = some a → P a := by
  induction entries generalizing t with
  | nil => exact ht
  | cons e rest ih =>
      obtain ⟨he, hrest⟩ := List.forall_mem_cons.1 hentries
      refine ih (fun a ha => ?_) hrest
      rw [find?_insert] at ha
      split at ha
      · cases ha
        exact he
      · exact ht a ha

end

end Table

end MathExpr
