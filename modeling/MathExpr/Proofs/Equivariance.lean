import MathExpr.Proofs.CalculatedParts
import MathExpr.Proofs.Leaves
import MathExpr.Proofs.Nameless
import MathExpr.Proofs.Renaming

/-!
# Changing names in trees

A change of names that keeps apart what differs in more than case commutes with all that rules do to trees:
with equality (`Tree.eqv_rename`), with matching by a pattern in which no name stands for itself
(`Pattern.matcher_rename`), and with filling in what has been captured (`Tree.fill_rename`).

The names under which a pattern captures are its own: they are not changed, and they do not occur in a tree
that has been filled in with all of them.
-/

namespace MathExpr

/-- Names that differ in more than case are changed into such names, and other names are not. -/
def KeepsNamesApart (r : String → String) : Prop :=
  ∀ a b, Text.lower (r a) = Text.lower (r b) ↔ Text.lower a = Text.lower b

variable {r : String → String}

/-! ### Values -/

namespace Value

mutual

/-- A value with its names changed. -/
def rename (r : String → String) : Value → Value
  | name s hints => name (r s) hints
  | list items => list (renameAll r items)
  | set items => set (renameAll r items)
  | v => v

/-- The values of a list with their names changed. -/
def renameAll (r : String → String) : List Value → List Value
  | [] => []
  | v :: vs => rename r v :: renameAll r vs

end

theorem renameAll_eq_map (items : List Value) : renameAll r items = items.map (rename r) := by
  induction items with
  | nil => rfl
  | cons v items ih => rw [renameAll, ih, List.map_cons]

theorem length_renameAll (items : List Value) : (renameAll r items).length = items.length := by
  rw [renameAll_eq_map, List.length_map]

section

attribute [local simp] rename renameAll eqv eqvAll subset isNameless areNameless

mutual

/-- A value without names stays as it is. -/
theorem rename_of_isNameless : (v : Value) → v.isNameless = true → v.rename r = v
  | name .., h => nomatch h
  | list items, h => congrArg list (renameAll_of_areNameless items h)
  | set items, h => congrArg set (renameAll_of_areNameless items h)
  | number _, _ | text .., _ | boolean _, _ | vector _, _ | matrix _, _ | range _, _ => rfl

theorem renameAll_of_areNameless :
    (items : List Value) → areNameless items = true → renameAll r items = items
  | [], _ => rfl
  | v :: items, h => by
      rw [areNameless, Bool.and_eq_true] at h
      rw [renameAll, rename_of_isNameless v h.1, renameAll_of_areNameless items h.2]

end

mutual

/-- Values are equal before and after their names are changed. -/
theorem eqv_rename (hr : KeepsNamesApart r) : (v w : Value) → (v.rename r).eqv (w.rename r) = v.eqv w
  | name a hints, w => by cases w <;> simp [Bool.beq_eq_decide_eq, hr a]
  | list items, w => by cases w <;> simp [eqvAll_rename hr items]
  | set items, w => by cases w <;> simp [subset_rename hr items, length_renameAll]
  | number _, w | text .., w | boolean _, w | vector _, w | matrix _, w | range _, w => by cases w <;> simp

theorem eqvAll_rename (hr : KeepsNamesApart r) : (xs ys : List Value) →
    eqvAll (renameAll r xs) (renameAll r ys) = eqvAll xs ys
  | [], [] | [], _ :: _ | _ :: _, [] => rfl
  | x :: xs, y :: ys => by simp [eqv_rename hr x, eqvAll_rename hr xs]

theorem subset_rename (hr : KeepsNamesApart r) : (xs ys : List Value) →
    subset (renameAll r xs) (renameAll r ys) = subset xs ys
  | [], _ => rfl
  | x :: xs, ys => by
      rw [renameAll, subset, subset, subset_rename hr xs, renameAll_eq_map, List.any_map]
      exact congrArg (· && _) (congrArg ys.any (funext (eqv_rename hr x)))

end

end

end Value

/-! ### Trees -/

namespace Tree

mutual

/-- A tree with its names changed. -/
def rename (r : String → String) : Tree → Tree
  | leaf v => leaf (v.rename r)
  | node h args => node h (renameAll r args)

/-- The trees of a list with their names changed. -/
def renameAll (r : String → String) : List Tree → List Tree
  | [] => []
  | t :: ts => rename r t :: renameAll r ts

end

theorem renameAll_eq_map (ts : List Tree) : renameAll r ts = ts.map (rename r) := by
  induction ts with
  | nil => rfl
  | cons t ts ih => rw [renameAll, ih, List.map_cons]

theorem kind_rename (t : Tree) : (t.rename r).kind = t.kind := by
  cases t with
  | leaf v => cases v <;> rfl
  | node h args => rfl

mutual

/-- Trees are equal before and after their names are changed. -/
theorem eqv_rename (hr : KeepsNamesApart r) : (t u : Tree) → (t.rename r).eqv (u.rename r) = t.eqv u
  | leaf v, leaf w => Value.eqv_rename hr v w
  | node h ts, node k us => congrArg (h.eqv k && ·) (eqvAll_rename hr ts us)
  | leaf _, node .. | node .., leaf _ => rfl

theorem eqvAll_rename (hr : KeepsNamesApart r) : (ts us : List Tree) →
    eqvAll (renameAll r ts) (renameAll r us) = eqvAll ts us
  | [], [] | [], _ :: _ | _ :: _, [] => rfl
  | t :: ts, u :: us => congrArg₂ (· && ·) (eqv_rename hr t u) (eqvAll_rename hr ts us)

end

end Tree

/-! ### Captures -/

theorem Table.insert_mapEntries {α β : Type} (f : α → β) (t : Table α) (key : String) (a : α) :
    (t.mapEntries f).insert key (f a) = (t.insert key a).mapEntries f := by
  obtain ⟨entries⟩ := t
  refine congrArg Table.mk ?_
  show insertInto key (f a) (entries.map fun e => (e.1, f e.2)) =
    (insertInto key a entries).map fun e => (e.1, f e.2)
  induction entries with
  | nil => rfl
  | cons e rest ih =>
      rw [List.map_cons, insertInto, insertInto, ih]
      split <;> rfl

namespace Captures

/-- What has been captured with the names in it changed. -/
def rename (r : String → String) (found : Captures) : Captures := found.mapEntries (Tree.rename r)

theorem find?_rename (found : Captures) (key : String) :
    (found.rename r).find? key = (found.find? key).map (Tree.rename r) :=
  Table.find?_mapEntries _ found key

theorem bind_rename (hr : KeepsNamesApart r) (found : Captures) (key : String) (t : Tree) :
    (found.rename r).bind key (t.rename r) = (found.bind key t).map (rename r) := by
  have hinsert : (found.rename r).insert key (t.rename r) = rename r (found.insert key t) :=
    Table.insert_mapEntries _ found key t
  unfold bind
  rw [find?_rename]
  cases found.find? key with
  | none => exact congrArg some hinsert
  | some u =>
      dsimp only [Option.map_some]
      rw [Tree.eqv_rename hr, hinsert]
      split <;> rfl

/-- There is a tree under each of some keys, and all that has been captured is part of a tree. -/
structure Covers (keys : List String) (t : Tree) (found : Captures) : Prop where
  isSome : ∀ key ∈ keys, (found.find? key).isSome = true
  parts : found.ArePartsOf t

theorem Covers.mono {keys keys' : List String} {t : Tree} {found : Captures} (h : found.Covers keys t)
    (hkeys : keys' ⊆ keys) : found.Covers keys' t :=
  ⟨fun key hkey => h.isSome key (hkeys hkey), h.parts⟩

theorem Covers.bind {keys : List String} {t u : Tree} {found found' : Captures} (h : found.Covers keys t)
    (hu : u ∈ t.subtrees) {key : String} (hbind : found.bind key u = some found') :
    found'.Covers (key :: keys) t := by
  refine ⟨fun k hk => ?_, h.parts.bind hu hbind⟩
  rw [eq_insert_of_bind hbind, Table.find?_insert]
  split
  · rfl
  · rename_i hne
    exact h.isSome k ((List.mem_cons.1 hk).resolve_left hne)

end Captures

/-! ### Matching -/

namespace Pattern

mutual

/-- Whether a pattern is matched from the left to the right, and no name stands for itself in it. -/
def isPlain : Pattern → Bool
  | anything | anyMore | ofKind _ => true
  | capture p _ => isPlain p
  | literal v => v.isNameless
  | node _ ps => arePlain ps
  | _ => false

/-- Whether all patterns of a list are plain. -/
def arePlain : List Pattern → Bool
  | [] => true
  | p :: ps => isPlain p && arePlain ps

end

mutual

/-- A plain pattern captures the same parts of a tree before and after names are changed. -/
theorem matcher_rename (hr : KeepsNamesApart r) : (p : Pattern) → p.isPlain = true → ∀ t found,
    matcher false p (t.rename r) (Captures.rename r found) = (matcher false p t found).map (Captures.rename r)
  | anything, _, _, _ | anyMore, _, _, _ => rfl
  | ofKind kind, _, t, found => by
      rw [matcher, matcher, Tree.kind_rename]
      split <;> rfl
  | capture p key, hp, t, found => by
      rw [matcher, matcher, matcher_rename hr p hp t found]
      cases matcher false p t found with
      | none => rfl
      | some found' => exact Captures.bind_rename hr found' key t
  | literal v, hv, .leaf w, found => by
      rw [Tree.rename, matcher, matcher]
      have heqv := Value.eqv_rename hr v w
      rw [Value.rename_of_isNameless v hv] at heqv
      rw [heqv]
      split <;> rfl
  | literal v, _, .node .., _ => rfl
  | node .., _, .leaf _, _ => rfl
  | node h ps, hps, .node k ts, found => by
      rw [Tree.rename, matcher_node, matcher_node]
      split
      · exact pairwise_rename hr ps hps ts found
      · rfl
  | anyOf _, hp, _, _ | allOf _, hp, _, _ | excluding _, hp, _, _ | commuting _, hp, _, _ => nomatch hp

theorem pairwise_rename (hr : KeepsNamesApart r) : (ps : List Pattern) → arePlain ps = true → ∀ ts found,
    pairwise (matchers false ps) (Tree.renameAll r ts) (Captures.rename r found) =
      (pairwise (matchers false ps) ts found).map (Captures.rename r)
  | [], _, [], _ | [], _, _ :: _, _ | _ :: _, _, [], _ => rfl
  | p :: ps, h, t :: ts, found => by
      rw [arePlain, Bool.and_eq_true] at h
      rw [matchers, Tree.renameAll, pairwise, pairwise, matcher_rename hr p h.1 t found]
      cases matcher false p t found with
      | none => rfl
      | some found' => exact pairwise_rename hr ps h.2 ts found'

end

/-- What a plain pattern finds in a tree with its names changed is what it finds in the tree, with the names
changed. -/
theorem find_rename (hr : KeepsNamesApart r) {p : Pattern} (hp : p.isPlain = true) (t : Tree) :
    p.find (t.rename r) false = (p.find t false).map (Captures.rename r) :=
  matcher_rename hr p hp t .empty

/-! What is captured. -/

mutual

/-- A plain pattern captures parts of the tree, under all of its names. -/
theorem covers_of_matcher {u : Tree} : (p : Pattern) → p.isPlain = true → ∀ t found found' keys,
    t ∈ u.subtrees → found.Covers keys u → matcher false p t found = some found' →
      found'.Covers (p.captureNames ++ keys) u
  | anything, _, _, _, _, _, _, hfound, h | anyMore, _, _, _, _, _, _, hfound, h => by
      cases h
      exact hfound
  | ofKind kind, _, t, found, found', keys, ht, hfound, h => by
      rw [matcher] at h
      split_ifs at h
      cases h
      exact hfound
  | capture p key, hp, t, found, found', keys, ht, hfound, h => by
      obtain ⟨found₁, hfound₁, h⟩ := Option.bind_eq_some_iff.1 h
      exact (covers_of_matcher p hp t found found₁ keys ht hfound hfound₁).bind ht h
  | literal v, _, .leaf w, found, found', keys, ht, hfound, h => by
      rw [matcher] at h
      split_ifs at h
      cases h
      exact hfound
  | literal v, _, .node .., _, _, _, _, _, h | node .., _, .leaf _, _, _, _, _, _, h => by cases h
  | node head ps, hps, .node k ts, found, found', keys, ht, hfound, h => by
      rw [matcher_node] at h
      split_ifs at h
      refine covers_of_matchers ps hps ts found found' keys (fun t hmem => ?_) hfound h
      exact Tree.subtrees_trans ht (Tree.subtrees_of_mem hmem (Tree.mem_subtrees_self t))
  | anyOf _, hp, _, _, _, _, _, _, _ | allOf _, hp, _, _, _, _, _, _, _ | excluding _, hp, _, _, _, _, _, _, _
  | commuting _, hp, _, _, _, _, _, _, _ => nomatch hp

theorem covers_of_matchers {u : Tree} : (ps : List Pattern) → arePlain ps = true → ∀ ts found found' keys,
    (∀ t ∈ ts, t ∈ u.subtrees) → found.Covers keys u →
      pairwise (matchers false ps) ts found = some found' → found'.Covers (captureNamesOf ps ++ keys) u
  | [], _, [], found, found', keys, _, hfound, h => by
      cases h
      exact hfound
  | [], _, _ :: _, _, _, _, _, _, h | _ :: _, _, [], _, _, _, _, _, h => by cases h
  | p :: ps, hps, t :: ts, found, found', keys, hts, hfound, h => by
      rw [arePlain, Bool.and_eq_true] at hps
      obtain ⟨ht, hts⟩ := List.forall_mem_cons.1 hts
      obtain ⟨found₁, hfirst, hrest⟩ := Option.bind_eq_some_iff.1 h
      have hfound₁ := covers_of_matcher p hps.1 t found found₁ keys ht hfound hfirst
      refine (covers_of_matchers ps hps.2 ts found₁ found' _ hts hfound₁ hrest).mono fun key hkey => ?_
      rw [captureNamesOf] at hkey
      grind

end

theorem covers_of_find {p : Pattern} (hp : p.isPlain = true) {t : Tree} {found : Captures}
    (h : p.find t false = some found) : found.Covers p.captureNames t := by
  have hcovers := covers_of_matcher p hp t .empty found [] (Tree.mem_subtrees_self t) ⟨nofun, nofun⟩ h
  rwa [List.append_nil] at hcovers

end Pattern

/-! ### Filling in -/

/-- Whether a value is no text with braces. -/
def Value.hasNoBraces : Value → Bool
  | text s _ _ => !s.toList.any Text.isBrace
  | _ => true

/-- Whether a value is a name among some keys, or has neither names nor braces in it. -/
def Value.isOver (keys : List String) : Value → Bool
  | name s _ => keys.contains (Text.lower s)
  | v => v.isNameless && v.hasNoBraces

namespace Tree

/-- No text in a tree has braces in it. -/
abbrev HasNoBraces (t : Tree) : Prop := t.Leaves fun v => v.hasNoBraces = true

/-- Names stand as leaves of their own, and no text has braces in it. -/
abbrev IsClean (t : Tree) : Prop := t.Leaves fun v => v.isPlain = true ∧ v.hasNoBraces = true

instance {P : Value → Prop} [DecidablePred P] (t : Tree) : Decidable (t.Leaves P) :=
  decidable_of_iff ((t.subtrees.all fun | leaf v => decide (P v) | node .. => true) = true) <| by
    constructor
    · exact fun h v hv => of_decide_eq_true (List.all_eq_true.1 h _ hv)
    · refine fun h => List.all_eq_true.2 fun u hu => ?_
      cases u with
      | leaf v => exact decide_eq_true (h v hu)
      | node => rfl

/-- Whether all names in a tree are among some keys, and its other values have neither names nor braces in
them. -/
def isOver (keys : List String) (t : Tree) : Bool :=
  t.subtrees.all fun | leaf v => v.isOver keys | node .. => true

variable {keys : List String} {found : Captures} {t u : Tree}

theorem leaves_of_isOver (h : t.isOver keys = true) : t.Leaves fun v => v.isOver keys = true :=
  fun v hv => List.all_eq_true.1 h (leaf v) hv

/-- In a tree that is filled in with captures for all of its names, only they have names. -/
theorem fill_rename (hfound : found.Covers keys u) (t : Tree) (ht : t.Leaves fun v => v.isOver keys = true) :
    t.fill (found.rename r) = (t.fill found).rename r := by
  induction t using ind with
  | leaf v =>
      have hv := leaves_leaf.1 ht
      cases v with
      | name s hints =>
          obtain ⟨w, hw⟩ := Option.isSome_iff_exists.1 (hfound.isSome _ (List.contains_iff_mem.1 hv))
          rw [fill, fill, Captures.find?_rename, hw]
          rfl
      | list | set =>
          refine congrArg leaf (Value.rename_of_isNameless _ ?_).symm
          exact (Bool.and_eq_true_iff.1 hv).1
      | _ => rfl
  | node h args ih =>
      have hargs (a : Tree) (ha : a ∈ args) := ih a ha (leaves_node.1 ht a ha)
      have hall : ∀ ts : List Tree, (∀ t ∈ ts, t.fill (found.rename r) = (t.fill found).rename r) →
          fillAll (found.rename r) ts = renameAll r (fillAll found ts) := by
        intro ts hts
        induction ts with
        | nil => rfl
        | cons t ts ih =>
            obtain ⟨ht, hts⟩ := List.forall_mem_cons.1 hts
            rw [fillAll, fillAll, renameAll, ht, ih hts]
      exact congrArg (node h) (hall args hargs)

/-- A tree that is filled in with parts of a clean tree is clean. -/
theorem isClean_fill (hfound : found.Covers keys u) (hu : u.IsClean)
    (ht : t.Leaves fun v => v.isOver keys = true) : (t.fill found).IsClean := by
  intro v hv
  rcases mem_subtrees_fill t hv with ⟨w, hw, heq⟩ | ⟨key, w, hw, hv⟩
  · cases w with
    | node => cases heq
    | leaf a =>
        have ha := ht a hw
        cases a with
        | name s hints =>
            obtain ⟨b, hb⟩ := Option.isSome_iff_exists.1 (hfound.isSome _ (List.contains_iff_mem.1 ha))
            rw [fill, hb] at heq
            refine hu v (subtrees_trans (hfound.parts _ _ hb) ?_)
            rw [show b = leaf v from heq.symm]
            exact mem_subtrees_self _
        | _ =>
            cases heq
            exact Bool.and_eq_true_iff.1 ha
  · exact hu v (subtrees_trans (hfound.parts key w hw) hv)

end Tree

/-! ### The relation of renamed trees -/

namespace Renaming

/-- The relation of the keys of names before and after they are changed. -/
def ofFunction (hr : KeepsNamesApart r) : Renaming where
  relates k l := ∃ a, Text.lower a = k ∧ Text.lower (r a) = l
  injective := by
    rintro _ _ _ _ ⟨a, rfl, rfl⟩ ⟨b, rfl, rfl⟩
    exact (hr a b).symm

theorem names_ofFunction (hr : KeepsNamesApart r) (a : String) : (ofFunction hr).names a (r a) :=
  ⟨a, rfl, rfl⟩

end Renaming

/-- A clean tree and the tree with its names changed are renamed forms of each other. -/
theorem Tree.renamed_rename (hr : KeepsNamesApart r) (t : Tree) (ht : t.IsClean) :
    t.Renamed (.ofFunction hr) (t.rename r) := by
  induction t using ind with
  | leaf v =>
      obtain ⟨hplain, hbraces⟩ := leaves_leaf.1 ht
      refine .leaf ?_
      cases v with
      | name a hints => exact .name hints hints (Renaming.names_ofFunction hr a)
      | list | set =>
          rw [Value.rename_of_isNameless _ hplain]
          exact .inert rfl
      | text => exact .inert hbraces
      | _ => exact .inert rfl
  | node h args ih =>
      refine .node rfl rfl ?_
      rw [renameAll_eq_map, List.forall₂_map_right_iff]
      exact List.forall₂_same.2 fun a ha => ih a ha (leaves_node.1 ht a ha)

end MathExpr
