import MathExpr.Proofs.FreeNames
import MathExpr.Proofs.Leaves

/-!
# Free occurrences

A name occurs free in a tree (`Tree.FreeIn`) if it stands at a leaf outside all constructs
that bind it, or so in the tree of a slot of a text. The free names that are computed are
the names that occur free (`FreeNames.mem_iff_freeIn`): the depth to which texts in slots
are followed is enough, because the texts in the tree of a slot are shorter than the text
of the slot.
-/

namespace MathExpr

/-- The names that are bound in argument number `i` of a node, where `bound` are bound outside. -/
def Tree.boundIn (h : Head) (args : List Tree) (bound : List String) (i : Nat) : List String :=
  if i < (binding h args).2 then (binding h args).1 ++ bound else bound

/-- A name occurs free in a tree in which `bound` are bound. `read` gives the tree of a slot. -/
inductive Tree.FreeIn (read : String → Outcome (Option Tree)) : List String → Tree → String → Prop
  | name {bound : List String} {s : String} {hints : List String} (h : Text.lower s ∉ bound) :
      FreeIn read bound (.leaf (.name s hints)) (Text.lower s)
  | slot {bound : List String} {content n : String} {latex : Bool} {slot : String × String}
      {u : Tree} (hslot : slot ∈ (Text.Template.ofText content).slots)
      (hread : read slot.1 = .ok (some u)) (hu : FreeIn read bound u n) :
      FreeIn read bound (.leaf (.text content false latex)) n
  | argument {bound : List String} {h : Head} {args : List Tree} {i : Nat} {u : Tree} {n : String}
      (hi : args[i]? = some u) (hu : FreeIn read (boundIn h args bound i) u n) :
      FreeIn read bound (.node h args) n

namespace Tree

variable {read : String → Outcome (Option Tree)} {bound bound' : List String} {t : Tree} {n : String}

theorem mem_boundIn {h : Head} {args : List Tree} {i : Nat} :
    n ∈ boundIn h args bound i ↔ (i < (binding h args).2 ∧ n ∈ (binding h args).1) ∨ n ∈ bound := by
  unfold boundIn
  split
  · rename_i hi
    rw [List.mem_append]
    exact or_congr_left (and_iff_right hi).symm
  · rename_i hi
    exact (or_iff_right fun h => hi h.1).symm

theorem FreeIn.not_mem (h : FreeIn read bound t n) : n ∉ bound := by
  induction h with
  | name h => exact h
  | slot _ _ _ ih => exact ih
  | argument _ _ ih => exact fun hn => ih (mem_boundIn.2 (.inr hn))

/-- Binding more names takes only these away. -/
theorem FreeIn.of_subset (h : FreeIn read bound t n) (hsubset : bound ⊆ bound') :
    n ∈ bound' ∨ FreeIn read bound' t n := by
  induction h generalizing bound' with
  | @name bound s hints h =>
      by_cases hs : Text.lower s ∈ bound'
      · exact .inl hs
      · exact .inr (.name hs)
  | slot hslot hread _ ih => exact (ih hsubset).imp_right (.slot hslot hread)
  | @argument bound h args i u n hi hu ih =>
      have hsub : boundIn h args bound i ⊆ boundIn h args bound' i := by
        intro m hm
        exact mem_boundIn.2 ((mem_boundIn.1 hm).imp_right fun hm => hsubset hm)
      rcases ih hsub with hn | hn
      · rcases mem_boundIn.1 hn with hnames | hn
        · exact absurd (mem_boundIn.2 (.inl hnames)) hu.not_mem
        · exact .inl hn
      · exact .inr (.argument hi hn)

end Tree

namespace FreeNames

variable {inText : List String → String → Outcome (List String)}
  {read : String → Outcome (Option Tree)} {n : String}

/-- What is found in the trees of a list is found in one of them. -/
theorem mem_ofTreesWith {inner outer found names : List String} {count : Nat} {ts : List Tree}
    (h : ofTreesWith inText inner outer count found ts = .ok names) :
    n ∈ names ↔ n ∈ found ∨ ∃ i t more, ts[i]? = some t ∧
      ofTreeWith inText (if i < count then inner else outer) t = .ok more ∧ n ∈ more := by
  induction ts generalizing count found with
  | nil =>
      cases h
      simp
  | cons t ts ih =>
      rw [ofTreesWith] at h
      obtain ⟨more, hmore, hrest⟩ := exists_of_bind_eq_ok h
      have hfirst : (if 0 < count then inner else outer) = if count = 0 then outer else inner := by
        cases count <;> rfl
      have hrest' (i : Nat) : (i < count - 1) = (i + 1 < count) := by
        rw [eq_iff_iff]
        omega
      simp only [ih hrest, mem_union, or_assoc, hrest']
      refine or_congr_right ⟨?_, ?_⟩
      · rintro (hn | ⟨i, u, more', hi, hmore', hn⟩)
        · exact ⟨0, t, more, rfl, by rw [hfirst]; exact hmore, hn⟩
        · exact ⟨i + 1, u, more', hi, hmore', hn⟩
      · rintro ⟨i, u, more', hi, hmore', hn⟩
        cases i with
        | zero =>
            cases hi
            rw [hfirst, hmore] at hmore'
            cases hmore'
            exact .inl hn
        | succ i => exact .inr ⟨i, u, more', hi, hmore', hn⟩

/-- The trees of a list all have free names. -/
theorem exists_of_ofTreesWith {inner outer found names : List String} {count i : Nat} {t : Tree}
    {ts : List Tree} (h : ofTreesWith inText inner outer count found ts = .ok names)
    (hi : ts[i]? = some t) :
    ∃ more, ofTreeWith inText (if i < count then inner else outer) t = .ok more := by
  induction ts generalizing count found i with
  | nil => cases hi
  | cons u ts ih =>
      rw [ofTreesWith] at h
      obtain ⟨more, hmore, hrest⟩ := exists_of_bind_eq_ok h
      cases i with
      | zero =>
          cases hi
          cases count with
          | zero => exact ⟨more, hmore⟩
          | succ count => exact ⟨more, hmore⟩
      | succ i =>
          obtain ⟨more', hmore'⟩ := ih hrest hi
          refine ⟨more', ?_⟩
          rw [← hmore']
          have : (i < count - 1) = (i + 1 < count) := by
            rw [eq_iff_iff]
            omega
          simp only [this]

theorem mem_foldlM {α : Type} {f : List String → α → Outcome (List String)} {Q : α → Prop}
    (hstep : ∀ found a found', f found a = .ok found' → (n ∈ found' ↔ n ∈ found ∨ Q a))
    {items : List α} {found names : List String} (h : items.foldlM f found = .ok names) :
    n ∈ names ↔ n ∈ found ∨ ∃ a ∈ items, Q a := by
  induction items generalizing found with
  | nil =>
      cases h
      simp
  | cons a rest ih =>
      rw [List.foldlM_cons] at h
      obtain ⟨found', ha, hrest⟩ := exists_of_bind_eq_ok h
      rw [ih hrest, hstep found a found' ha, or_assoc]
      simp only [List.mem_cons, exists_eq_or_imp]

/-- What is found in a text is found in one of its slots. -/
theorem mem_ofTextWith {depth : Nat} {bound names : List String} {s : String}
    (h : ofTextWith read (depth + 1) bound s = .ok names) :
    n ∈ names ↔ ∃ slot ∈ (Text.Template.ofText s).slots, ∃ t more, read slot.1 = .ok (some t) ∧
      ofTreeWith (ofTextWith read depth) bound t = .ok more ∧ n ∈ more := by
  unfold ofTextWith at h
  rw [mem_foldlM (fun found slot found' hstep => ?_) h, or_iff_right List.not_mem_nil]
  obtain ⟨o, ho, hrest⟩ := exists_of_bind_eq_ok hstep
  cases o with
  | none =>
      cases hrest
      refine (or_iff_left ?_).symm
      rintro ⟨t, more, ht, -, -⟩
      rw [ho] at ht
      cases ht
  | some t =>
      obtain ⟨more, hmore, hunion⟩ := exists_of_bind_eq_ok hrest
      cases hunion
      rw [mem_union]
      refine or_congr_right ⟨fun hn => ⟨t, more, ho, hmore, hn⟩, ?_⟩
      rintro ⟨t', more', ht', hmore', hn⟩
      rw [ho] at ht'
      cases ht'
      rw [hmore] at hmore'
      cases hmore'
      exact hn

/-- The tree of each slot of a text has free names. -/
theorem exists_of_ofTextWith {depth : Nat} {bound names : List String} {s : String}
    (h : ofTextWith read (depth + 1) bound s = .ok names) {slot : String × String} {t : Tree}
    (hslot : slot ∈ (Text.Template.ofText s).slots) (hread : read slot.1 = .ok (some t)) :
    ∃ more, ofTreeWith (ofTextWith read depth) bound t = .ok more := by
  unfold ofTextWith at h
  obtain ⟨found, found', hstep⟩ := exists_of_foldlM_eq_ok h hslot
  obtain ⟨o, ho, hrest⟩ := exists_of_bind_eq_ok hstep
  rw [hread] at ho
  cases ho
  obtain ⟨more, hmore, -⟩ := exists_of_bind_eq_ok hrest
  exact ⟨more, hmore⟩

/-- What is found in a tree occurs free in it, if this is so in texts. -/
theorem freeIn_of_mem_ofTreeWith
    (htext : ∀ bound s latex names, inText bound s = .ok names → n ∈ names →
      Tree.FreeIn read bound (.leaf (.text s false latex)) n)
    {t : Tree} {bound names : List String} (h : ofTreeWith inText bound t = .ok names)
    (hn : n ∈ names) : t.FreeIn read bound n := by
  induction t using Tree.ind generalizing bound names with
  | leaf v =>
      cases v with
      | name s hints =>
          cases h
          split at hn
          · cases hn
          · rename_i hbound
            cases List.mem_singleton.1 hn
            exact .name fun hmem => hbound (List.contains_iff_mem.2 hmem)
      | text s safe latex =>
          cases safe with
          | true =>
              cases h
              cases hn
          | false => exact htext bound s latex names h hn
      | _ =>
          cases h
          cases hn
  | node head args ih =>
      rcases (mem_ofTreesWith h).1 hn with hn | ⟨i, t, more, hi, hmore, hn⟩
      · cases hn
      · exact .argument hi (ih t (List.mem_of_getElem? hi) hmore hn)

/-- What occurs free in a tree is found in it, if this is so in the texts of the tree. -/
theorem mem_ofTreeWith_of_freeIn {P : Value → Prop}
    (htext : ∀ bound s latex names, P (.text s false latex) → inText bound s = .ok names →
      Tree.FreeIn read bound (.leaf (.text s false latex)) n → n ∈ names)
    {t : Tree} {bound names : List String} (hleaves : t.Leaves P)
    (h : ofTreeWith inText bound t = .ok names) (hn : t.FreeIn read bound n) : n ∈ names := by
  induction t using Tree.ind generalizing bound names with
  | leaf v =>
      cases hn with
      | name hbound =>
          cases h
          rw [if_neg fun hmem => hbound (List.contains_iff_mem.1 hmem)]
          exact List.mem_singleton.2 rfl
      | slot hslot hread hu =>
          exact htext bound _ _ names (Tree.leaves_leaf.1 hleaves) h (.slot hslot hread hu)
  | node head args ih =>
      cases hn with
      | argument hi hu =>
          have hmem := List.mem_of_getElem? hi
          obtain ⟨more, hmore⟩ := exists_of_ofTreesWith h hi
          refine (mem_ofTreesWith h).2 (.inr ⟨_, _, more, hi, hmore, ?_⟩)
          exact ih _ hmem (Tree.leaves_node.1 hleaves _ hmem) hmore hu

theorem freeIn_of_mem_ofTextWith {depth : Nat} {bound names : List String} {s : String}
    (latex : Bool) (h : ofTextWith read depth bound s = .ok names) (hn : n ∈ names) :
    Tree.FreeIn read bound (.leaf (.text s false latex)) n := by
  induction depth generalizing bound names s latex with
  | zero =>
      cases h
      cases hn
  | succ depth ih =>
      obtain ⟨slot, hslot, t, more, hread, hmore, hn⟩ := (mem_ofTextWith h).1 hn
      exact .slot hslot hread
        (freeIn_of_mem_ofTreeWith (fun _ _ latex _ h hn => ih latex h hn) hmore hn)

/-- `read` gives trees whose texts are shorter than what is read. -/
def ReadsShorter (read : String → Outcome (Option Tree)) : Prop :=
  ∀ source t, read source = .ok (some t) → t.Leaves (Value.TextBelow source.length)

theorem mem_ofTextWith_of_freeIn (hread : ReadsShorter read) {depth : Nat}
    {bound names : List String} {s : String} {latex : Bool} (hdepth : s.length < depth)
    (h : ofTextWith read depth bound s = .ok names)
    (hn : Tree.FreeIn read bound (.leaf (.text s false latex)) n) : n ∈ names := by
  induction depth generalizing bound names s latex with
  | zero => exact absurd hdepth (Nat.not_lt_zero _)
  | succ depth ih =>
      cases hn with
      | slot hslot hu hn =>
          obtain ⟨more, hmore⟩ := exists_of_ofTextWith h hslot hu
          refine (mem_ofTextWith h).2 ⟨_, hslot, _, more, hu, hmore, ?_⟩
          -- a text in a slot is shorter than the slot
          refine mem_ofTreeWith_of_freeIn (fun bound c latex names hc h hn => ?_) (hread _ _ hu) hmore hn
          have hslot := Text.Template.length_le_of_mem_slots hslot
          change c.length < _ at hc
          exact ih (by omega) h hn

/-- **Free names.** The free names of a tree that are found are the names that occur free in it. -/
theorem mem_iff_freeIn (hread : ReadsShorter read) {t : Tree} {bound names : List String}
    (h : ofTree read bound t = .ok names) : n ∈ names ↔ t.FreeIn read bound n := by
  constructor
  · exact fun hn => freeIn_of_mem_ofTreeWith (fun _ _ latex _ h hn => freeIn_of_mem_ofTextWith latex h hn) h hn
  · refine mem_ofTreeWith_of_freeIn (P := fun _ => True) (fun _ s _ _ _ h hn => ?_) (fun _ _ => trivial) h
    exact mem_ofTextWith_of_freeIn hread (Nat.lt_succ_self _) h hn

end FreeNames

end MathExpr
