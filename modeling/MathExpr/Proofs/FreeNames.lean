import MathExpr.Proofs.Outcome
import MathExpr.Proofs.Replacement

/-!
# Free names and replacement

Replacing names by values takes free names away and adds none: apart from the names that
are replaced, a tree has the same free names before and after, in the same order
(`FreeNames.ofTreeWith_replace`). Which names those are is left open by a predicate on
keys, so that names in the slots of texts, which are never replaced, may be among them.
-/

namespace MathExpr.FreeNames

theorem mem_union {n : String} {names more : List String} :
    n ∈ union names more ↔ n ∈ names ∨ n ∈ more := by
  unfold union
  induction more generalizing names with
  | nil => simp
  | cons m rest ih =>
      rw [List.foldl_cons, ih, List.mem_cons]
      by_cases hm : names.contains m = true
      · rw [if_pos hm]
        have hmem : m ∈ names := List.contains_iff_mem.1 hm
        constructor
        · rintro (h | h)
          · exact .inl h
          · exact .inr (.inr h)
        · rintro (h | rfl | h)
          · exact .inl h
          · exact .inl hmem
          · exact .inr h
      · rw [if_neg hm, List.mem_append, List.mem_singleton, or_assoc]

theorem filter_union (p : String → Bool) (names more : List String) :
    (union names more).filter p = union (names.filter p) (more.filter p) := by
  induction more generalizing names with
  | nil => rfl
  | cons n rest ih =>
      show (union (if names.contains n then names else names ++ [n]) rest).filter p = _
      rw [ih]
      by_cases hp : p n = true
      · rw [List.filter_cons_of_pos hp]
        show _ = union (if (names.filter p).contains n then _ else _) (rest.filter p)
        have hmem : (names.filter p).contains n = names.contains n := by
          rw [Bool.eq_iff_iff, List.contains_iff_mem, List.contains_iff_mem, List.mem_filter]
          exact ⟨And.left, fun h => ⟨h, hp⟩⟩
        rw [hmem]
        split
        · rfl
        · rw [List.filter_append, List.filter_cons_of_pos hp, List.filter_nil]
      · rw [List.filter_cons_of_neg hp]
        split
        · rfl
        · rw [List.filter_append, List.filter_cons_of_neg hp, List.filter_nil, List.append_nil]

variable {inText : List String → String → Outcome (List String)} {p : String → Bool}

/-- An inert value has no free names. -/
theorem ofTreeWith_leaf_inert
    (htext : ∀ bound s, s.toList.any Text.isBrace = false → inText bound s = .ok [])
    {v : Value} (hv : v.isInert = true) (bound : List String) :
    ofTreeWith inText bound (.leaf v) = .ok [] := by
  cases v with
  | name => cases hv
  | text s safe latex =>
      unfold ofTreeWith
      cases safe with
      | true => rfl
      | false => exact htext bound s ((Bool.not_eq_true' _).mp hv)
  | _ => rfl

/-- Equal apart from the names that `p` does not hold of. -/
def SameUpTo (p : String → Bool) (x y : Outcome (List String)) : Prop :=
  x.map (List.filter p) = y.map (List.filter p)

theorem SameUpTo.bind {x y : Outcome (List String)} {f g : List String → Outcome (List String)}
    (h : SameUpTo p x y)
    (hfg : ∀ a b, a.filter p = b.filter p → SameUpTo p (f a) (g b)) :
    SameUpTo p (x >>= f) (y >>= g) := by
  cases x with
  | error e =>
      cases y with
      | error e' =>
          cases h
          rfl
      | ok b => cases h
  | ok a =>
      cases y with
      | error e' => cases h
      | ok b => exact hfg a b (Except.ok.inj h)

/-- The names found in the trees of a list, if those of each are the same up to `p`. -/
theorem ofTreesWith_replaceAll {inner outer : List String} {σ τ : Lookup} {ts : List Tree}
    (hinner : ∀ t ∈ ts, SameUpTo p (ofTreeWith inText inner (t.replace τ)) (ofTreeWith inText inner t))
    (houter : ∀ t ∈ ts, SameUpTo p (ofTreeWith inText outer (t.replace σ)) (ofTreeWith inText outer t))
    (count : Nat) {found found' : List String} (hfound : found'.filter p = found.filter p) :
    SameUpTo p (ofTreesWith inText inner outer count found' (Tree.replaceAll τ σ count ts))
      (ofTreesWith inText inner outer count found ts) := by
  induction ts generalizing count found found' with
  | nil =>
      cases count with
      | zero => exact congrArg Except.ok hfound
      | succ count => exact congrArg Except.ok hfound
  | cons t ts ih =>
      have ih := ih (fun u hu => hinner u (List.mem_cons_of_mem t hu))
        (fun u hu => houter u (List.mem_cons_of_mem t hu))
      have hunion {more more' : List String} (hmore : more'.filter p = more.filter p) :
          (union found' more').filter p = (union found more).filter p := by
        rw [filter_union, filter_union, hfound, hmore]
      cases count with
      | zero =>
          rw [Tree.replaceAll, ofTreesWith, ofTreesWith, if_pos rfl]
          exact (houter t List.mem_cons_self).bind fun a b hab => ih 0 (hunion hab)
      | succ count =>
          rw [Tree.replaceAll, ofTreesWith, ofTreesWith, if_neg (Nat.succ_ne_zero count)]
          exact (hinner t List.mem_cons_self).bind fun a b hab => ih count (hunion hab)

/-- A tree in which names are replaced by inert values has the free names that it had
before, up to the names that are replaced. -/
theorem ofTreeWith_replace
    (htext : ∀ bound s, s.toList.any Text.isBrace = false → inText bound s = .ok [])
    {σ : Lookup} (hσ : σ.IsInert) (hp : ∀ n v, σ (Text.lower n) = some v → p (Text.lower n) = false) (t : Tree)
    (bound : List String) :
    SameUpTo p (ofTreeWith inText bound (t.replace σ)) (ofTreeWith inText bound t) := by
  induction t using Tree.ind generalizing σ bound with
  | leaf v =>
      cases v with
      | name n hints =>
          rw [Tree.replace]
          cases hn : σ (Text.lower n) with
          | none => rfl
          | some v =>
              show SameUpTo p (ofTreeWith inText bound (.leaf v)) _
              rw [ofTreeWith_leaf_inert htext (hσ _ _ hn)]
              show Except.ok [] = Except.ok (List.filter p (if _ then [] else [Text.lower n]))
              split
              · rfl
              · rw [List.filter_cons_of_neg (by rw [hp _ _ hn]; exact Bool.false_ne_true),
                  List.filter_nil]
      | _ => rfl
  | node h args ih =>
      rw [Tree.replace, ofTreeWith, ofTreeWith, Tree.binding_replaceAll hσ]
      refine ofTreesWith_replaceAll (fun t ht => ih t ht (hσ.hide _) ?_ _)
        (fun t ht => ih t ht hσ hp _) _ rfl
      exact fun n v hn => hp n v (Lookup.hide_eq_some hn).2

/-! ### Texts without braces -/

theorem head?_any_of_any {cs : List Char} {q : Char → Bool} (h : cs.any q = false) :
    cs.head?.any q = false := by
  cases cs with
  | nil => rfl
  | cons c rest =>
      rw [List.any_cons, Bool.or_eq_false_iff] at h
      exact h.1

theorem split_of_no_brace {plain cs : List Char} (h : cs.any Text.isBrace = false) :
    Text.Template.split plain cs = (plain ++ cs, []) := by
  induction cs generalizing plain with
  | nil =>
      unfold Text.Template.split
      rw [List.append_nil]
  | cons c rest ih =>
      rw [List.any_cons, Bool.or_eq_false_iff] at h
      obtain ⟨hc, hrest⟩ := h
      unfold Text.Template.split
      rw [if_neg (by rw [head?_any_of_any hrest]; exact fun hh => Bool.false_ne_true hh.2),
        if_neg (by rintro rfl; cases hc), ih hrest, List.append_assoc]
      rfl

theorem ofTextWith_of_no_brace (read : String → Outcome (Option Tree)) (depth : Nat)
    (bound : List String) {s : String} (h : s.toList.any Text.isBrace = false) :
    ofTextWith read depth bound s = .ok [] := by
  cases depth with
  | zero => rfl
  | succ depth =>
      unfold ofTextWith Text.Template.ofText
      rw [split_of_no_brace h]
      rfl

theorem ofTree_leaf_inert {v : Value} (hv : v.isInert = true)
    (read : String → Outcome (Option Tree)) (bound : List String) :
    ofTree read bound (.leaf v) = .ok [] :=
  ofTreeWith_leaf_inert (fun _ _ h => ofTextWith_of_no_brace read _ _ h) hv bound

/-- The free names of a tree in which names are replaced by inert values are those that
it had before, up to the names that are replaced. -/
theorem ofTree_replace (read : String → Outcome (Option Tree)) (bound : List String)
    {σ : Lookup} (hσ : σ.IsInert) (hp : ∀ n v, σ (Text.lower n) = some v → p (Text.lower n) = false) (t : Tree) :
    SameUpTo p (ofTree read bound (t.replace σ)) (ofTree read bound t) :=
  ofTreeWith_replace (fun _ _ h => ofTextWith_of_no_brace read _ _ h) hσ hp t bound

/-! ### Free names are keys -/


/-- The names in some result are keys. -/
def AreKeys (names : Outcome (List String)) : Prop :=
  ∀ found, names = .ok found → ∀ n ∈ found, Text.lower n = n

theorem areKeys_ofTreesWith {inner outer : List String} {ts : List Tree}
    (hinner : ∀ t ∈ ts, AreKeys (ofTreeWith inText inner t))
    (houter : ∀ t ∈ ts, AreKeys (ofTreeWith inText outer t)) (count : Nat) {found : List String}
    (hfound : ∀ n ∈ found, Text.lower n = n) :
    AreKeys (ofTreesWith inText inner outer count found ts) := by
  induction ts generalizing count found with
  | nil =>
      rintro _ ⟨⟩
      exact hfound
  | cons t ts ih =>
      intro names hnames
      rw [ofTreesWith] at hnames
      have hkeys : AreKeys (ofTreeWith inText (if count = 0 then outer else inner) t) := by
        split
        · exact houter t List.mem_cons_self
        · exact hinner t List.mem_cons_self
      obtain ⟨more, hmore, hrest⟩ := exists_of_bind_eq_ok hnames
      refine ih (fun u hu => hinner u (List.mem_cons_of_mem t hu))
        (fun u hu => houter u (List.mem_cons_of_mem t hu)) (count - 1) (fun n hn => ?_) names hrest
      rcases mem_union.1 hn with hn | hn
      · exact hfound n hn
      · exact hkeys more hmore n hn

theorem areKeys_ofTreeWith (htext : ∀ bound s, AreKeys (inText bound s)) (t : Tree)
    (bound : List String) : AreKeys (ofTreeWith inText bound t) := by
  induction t using Tree.ind generalizing bound with
  | leaf v =>
      cases v with
      | name n hints =>
          rintro found ⟨⟩ m hm
          split at hm
          · cases hm
          · rw [List.mem_singleton.1 hm, Text.lower_lower]
      | text s safe latex =>
          unfold ofTreeWith
          split
          · rintro found ⟨⟩ m hm
            cases hm
          · exact htext bound s
      | _ =>
          rintro found ⟨⟩ m hm
          cases hm
  | node h args ih =>
      unfold ofTreeWith
      exact areKeys_ofTreesWith (fun t ht => ih t ht _) (fun t ht => ih t ht _) _
        fun n hn => absurd hn List.not_mem_nil

theorem areKeys_ofTextWith (read : String → Outcome (Option Tree)) (depth : Nat)
    (bound : List String) (s : String) : AreKeys (ofTextWith read depth bound s) := by
  induction depth generalizing bound s with
  | zero =>
      rintro found ⟨⟩ n hn
      cases hn
  | succ depth ih =>
      unfold ofTextWith
      intro names h
      refine invariant_of_foldlM_eq_ok (P := fun found => ∀ n ∈ found, Text.lower n = n) ?_
        (fun n hn => absurd hn List.not_mem_nil) h
      intro found slot found' hfound hstep
      obtain ⟨t, -, ht⟩ := exists_of_bind_eq_ok hstep
      cases t with
      | none =>
          cases ht
          exact hfound
      | some t =>
          obtain ⟨more, hmore, hunion⟩ := exists_of_bind_eq_ok ht
          cases hunion
          intro n hn
          rcases mem_union.1 hn with hn | hn
          · exact hfound n hn
          · exact areKeys_ofTreeWith ih t bound more hmore n hn

/-- The free names of a tree are keys. -/
theorem areKeys_ofTree? (read : String → Outcome (Option Tree)) (bound : List String)
    (t : Option Tree) : AreKeys (ofTree? read bound t) := by
  cases t with
  | none =>
      rintro found ⟨⟩ n hn
      cases hn
  | some t => exact areKeys_ofTreeWith (fun bound s => areKeys_ofTextWith read _ bound s) t bound

end MathExpr.FreeNames
