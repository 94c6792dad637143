import MathExpr.Proofs.Evaluation
import MathExpr.Proofs.FreeNames
import MathExpr.Proofs.SubstitutionLemma
import Mathlib.Data.List.Forall2

/-!
# Renaming

The names of a tree may be changed together with the names that are bound: a tree and a renamed one have
the same outcome in two scopes that give the names the same values (`Scope.Renamed.sameOutcome_eval`).

A renaming is a relation between keys under which names that differ stay different. The identity is one:
it relates trees that are written in different cases. Names in the slots of texts and in the bodies of
custom functions are not renamed, so that these have to be left out unless the renaming is the identity.

Each construct is one lemma about renamed arguments. Where a construct builds a scope, the scopes are
renamed as well (`Action.Alike`).
-/

namespace MathExpr

/-! ### Results that are related -/

/-- Two results that are related, or the same failure. -/
inductive Agrees {κ α β : Type} (R : α → β → Prop) : Except κ α → Except κ β → Prop
  | ok {a : α} {b : β} (h : R a b) : Agrees R (.ok a) (.ok b)
  | error (k : κ) : Agrees R (.error k) (.error k)

/-- Either results are related or both fail. -/
theorem Agrees.or {κ α β : Type} {R : α → β → Prop} {x : Except κ α} {y : Except κ β}
    (h : Agrees R x y) : (∃ a b, x = .ok a ∧ y = .ok b ∧ R a b) ∨ ∃ k, x = .error k ∧ y = .error k := by
  cases h with
  | ok hab => exact .inl ⟨_, _, rfl, rfl, hab⟩
  | error k => exact .inr ⟨k, rfl, rfl⟩

theorem Agrees.bind {κ α α' β β' : Type} {R : α → α' → Prop} {S : β → β' → Prop} {x : Except κ α}
    {y : Except κ α'} {f : α → Except κ β} {g : α' → Except κ β'} (h : Agrees R x y)
    (hfg : ∀ a b, R a b → Agrees S (f a) (g b)) : Agrees S (x >>= f) (y >>= g) := by
  cases h with
  | ok hab => exact hfg _ _ hab
  | error k => exact .error k

theorem Agrees.refl {κ α : Type} {R : α → α → Prop} {x : Except κ α} (h : ∀ a, x = .ok a → R a a) :
    Agrees R x x := by
  cases x with
  | ok a => exact .ok (h a rfl)
  | error k => exact .error k

/-- Two results that are related, or failures of the same kind. -/
def AgreesUpTo {ε κ α β : Type} (kind : ε → κ) (R : α → β → Prop) (x : Except ε α) (y : Except ε β) : Prop :=
  Agrees R (x.mapError kind) (y.mapError kind)

namespace AgreesUpTo

variable {ε κ α α' β β' : Type} {kind : ε → κ} {R : α → α' → Prop} {S : β → β' → Prop}

theorem ok {a : α} {b : α'} (h : R a b) : AgreesUpTo kind R (.ok a) (.ok b) := Agrees.ok h

theorem error {e e' : ε} (h : kind e = kind e') :
    AgreesUpTo kind R (.error e : Except ε α) (.error e' : Except ε α') := by
  show Agrees R (Except.error (kind e)) (Except.error (kind e'))
  rw [h]
  exact .error _

theorem bind {x : Except ε α} {y : Except ε α'} {f : α → Except ε β} {g : α' → Except ε β'}
    (h : AgreesUpTo kind R x y) (hfg : ∀ a b, R a b → AgreesUpTo kind S (f a) (g b)) :
    AgreesUpTo kind S (x >>= f) (y >>= g) := by
  have hbind {γ δ : Type} (x : Except ε γ) (f : γ → Except ε δ) :
      (x >>= f).mapError kind = x.mapError kind >>= fun a => (f a).mapError kind := by
    cases x <;> rfl
  unfold AgreesUpTo
  rw [hbind, hbind]
  exact Agrees.bind h hfg

/-- Errors of the same kind are failures of the same kind. -/
theorem asFailure {x : Except Error α} {y : Except Error α'} (h : AgreesUpTo Error.kind R x y) :
    AgreesUpTo Failure.kind R (x.mapError Failure.error) (y.mapError Failure.error) := by
  have hkind {γ : Type} (x : Except Error γ) :
      (x.mapError Failure.error).mapError Failure.kind = (x.mapError Error.kind).mapError .error := by
    cases x <;> rfl
  unfold AgreesUpTo
  rw [hkind, hkind]
  rcases h.or with ⟨a, b, ha, hb, hab⟩ | ⟨k, ha, hb⟩
  · rw [ha, hb]
    exact .ok hab
  · rw [ha, hb]
    exact .error _

end AgreesUpTo

namespace Action

variable {α α' β β' : Type} {R : α → α' → Prop} {S : β → β' → Prop}

/-- Two actions with related results, or failures of the same kind, and the same draws. -/
def Alike (R : α → α' → Prop) (x : Action α) (y : Action α') : Prop :=
  ∀ d, Agrees R (outcome x d).1 (outcome y d).1 ∧ (outcome x d).2 = (outcome y d).2

theorem Alike.pure {a : α} {b : α'} (h : R a b) : Alike R (Pure.pure a) (Pure.pure b) :=
  fun _ => ⟨.ok h, rfl⟩

theorem Alike.bind {x : Action α} {y : Action α'} {f : α → Action β} {g : α' → Action β'}
    (h : Alike R x y) (hfg : ∀ a b, R a b → Alike S (f a) (g b)) : Alike S (x >>= f) (y >>= g) := by
  intro d
  obtain ⟨hresult, hdraws⟩ := h d
  rw [outcome_bind, outcome_bind]
  rcases hresult.or with ⟨a, b, ha, hb, hab⟩ | ⟨k, ha, hb⟩
  · rw [show outcome x d = (.ok a, (outcome y d).2) from Prod.ext ha hdraws,
      show outcome y d = (.ok b, (outcome y d).2) from Prod.ext hb rfl]
    exact hfg a b hab _
  · rw [show outcome x d = (.error k, (outcome y d).2) from Prod.ext ha hdraws,
      show outcome y d = (.error k, (outcome y d).2) from Prod.ext hb rfl]
    exact ⟨.error k, rfl⟩

theorem Alike.ofOutcome {x : Outcome α} {y : Outcome α'} (h : AgreesUpTo Failure.kind R x y) :
    Alike R (Action.ofOutcome x) (Action.ofOutcome y) :=
  fun _ => ⟨h, rfl⟩

theorem alike_eq_iff {x y : Action α} : Alike Eq x y ↔ SameOutcome x y := by
  constructor
  · intro h
    funext d
    obtain ⟨hresult, hdraws⟩ := h d
    refine Prod.ext ?_ hdraws
    rcases hresult.or with ⟨a, b, ha, hb, hab⟩ | ⟨k, ha, hb⟩
    · rw [ha, hb, hab]
    · rw [ha, hb]
  · intro h d
    rw [h]
    exact ⟨.refl fun _ _ => rfl, rfl⟩

alias ⟨Alike.sameOutcome, SameOutcome.alike⟩ := alike_eq_iff

/-- What follows related results has the same outcome. -/
theorem Alike.bind_sameOutcome {x : Action α} {y : Action α'} {f : α → Action β} {g : α' → Action β}
    (h : Alike R x y) (hfg : ∀ a b, R a b → SameOutcome (f a) (g b)) :
    SameOutcome (x >>= f) (y >>= g) :=
  (h.bind fun a b hab => (hfg a b hab).alike).sameOutcome

end Action

/-! ### Lists that are related -/

section

variable {α α' β β' : Type} {R : α → α' → Prop} {S : β → β' → Prop}

/-- What holds of related elements of two lists, one by one. -/
theorem forall₂_of_mem {R' : α → α' → Prop} {xs : List α} {ys : List α'} (h : List.Forall₂ R xs ys)
    (hR : ∀ x ∈ xs, ∀ y, R x y → R' x y) : List.Forall₂ R' xs ys := by
  induction h with
  | nil => exact .nil
  | cons hxy _ ih =>
      exact .cons (hR _ List.mem_cons_self _ hxy) (ih fun x hx => hR x (List.mem_cons_of_mem _ hx))

/-- Either two optional results are both missing, or they are related. -/
theorem or_of_optionRel {x : Option β} {y : Option β'} (h : Option.Rel S x y) :
    x = none ∧ y = none ∨ ∃ a b, x = some a ∧ y = some b ∧ S a b := by
  cases h with
  | none => exact .inl ⟨rfl, rfl⟩
  | some hab => exact .inr ⟨_, _, rfl, rfl, hab⟩

theorem forall₂_filterMap {f : α → Option β} {g : α' → Option β'} {xs : List α} {ys : List α'}
    (h : List.Forall₂ R xs ys) (hfg : ∀ x y, R x y → Option.Rel S (f x) (g y)) :
    List.Forall₂ S (xs.filterMap f) (ys.filterMap g) := by
  induction h with
  | nil => exact .nil
  | cons hxy _ ih =>
      rw [List.filterMap_cons, List.filterMap_cons]
      rcases or_of_optionRel (hfg _ _ hxy) with ⟨hf, hg⟩ | ⟨a, b, hf, hg, hab⟩
      · rw [hf, hg]
        exact ih
      · rw [hf, hg]
        exact .cons hab ih

theorem optionRel_mapM {f : α → Option β} {g : α' → Option β'} {xs : List α} {ys : List α'}
    (h : List.Forall₂ R xs ys) (hfg : ∀ x y, R x y → Option.Rel S (f x) (g y)) :
    Option.Rel (List.Forall₂ S) (xs.mapM f) (ys.mapM g) := by
  induction h with
  | nil => exact .some .nil
  | cons hxy _ ih =>
      rw [List.mapM_cons, List.mapM_cons]
      rcases or_of_optionRel (hfg _ _ hxy) with ⟨hf, hg⟩ | ⟨a, b, hf, hg, hab⟩
      · rw [hf, hg]
        exact .none
      · rw [hf, hg]
        rcases or_of_optionRel ih with ⟨hfs, hgs⟩ | ⟨as, bs, hfs, hgs, hrest⟩
        · rw [hfs, hgs]
          exact .none
        · rw [hfs, hgs]
          exact .some (.cons hab hrest)

end

/-! ### Renamings -/

/-- A relation between keys under which names that differ stay different. -/
structure Renaming where
  relates : String → String → Prop
  injective : ∀ {k l k' l' : String}, relates k l → relates k' l' → (k = k' ↔ l = l')

namespace Renaming

variable {ρ : Renaming}

/-- A name is changed into another, in any case. -/
def names (ρ : Renaming) (a b : String) : Prop := ρ.relates (Text.lower a) (Text.lower b)

/-- Names that are related and in lower case. -/
structure Keys (ρ : Renaming) (k l : String) : Prop where
  relates : ρ.relates k l
  lower_left : Text.lower k = k
  lower_right : Text.lower l = l

/-- Whether every name stays as it is. -/
def IsIdentity (ρ : Renaming) : Prop := ∀ k, ρ.relates k k

/-- The renaming that leaves all names as they are. -/
def identity : Renaming := ⟨Eq, fun h h' => by rw [h, h']⟩

theorem isIdentity_identity : identity.IsIdentity := fun _ => rfl

theorem IsIdentity.eq (h : ρ.IsIdentity) {k l : String} (hkl : ρ.relates k l) : k = l :=
  (ρ.injective (h k) hkl).1 rfl

theorem Keys.names {k l : String} (h : ρ.Keys k l) : ρ.names k l := by
  unfold Renaming.names
  rw [h.lower_left, h.lower_right]
  exact h.relates

theorem names.keys {a b : String} (h : ρ.names a b) : ρ.Keys (Text.lower a) (Text.lower b) :=
  ⟨h, Text.lower_lower a, Text.lower_lower b⟩

theorem IsIdentity.eq_of_keys (h : ρ.IsIdentity) {ks ls : List String}
    (hkeys : List.Forall₂ ρ.Keys ks ls) : ks = ls := by
  induction hkeys with
  | nil => rfl
  | cons hkl _ ih => rw [h.eq hkl.relates, ih]

theorem contains_eq {ks ls : List String} (h : List.Forall₂ ρ.Keys ks ls) {k l : String}
    (hkl : ρ.Keys k l) : ks.contains k = ls.contains l := by
  induction h with
  | nil => rfl
  | cons hkl' _ ih =>
      rw [List.contains_cons, List.contains_cons, ih, Bool.eq_iff_iff, Bool.or_eq_true, Bool.or_eq_true,
        beq_iff_eq, beq_iff_eq, ρ.injective hkl.relates hkl'.relates]

theorem forall₂_append {ks ls ks' ls' : List String} (h : List.Forall₂ ρ.Keys ks ls)
    (h' : List.Forall₂ ρ.Keys ks' ls') : List.Forall₂ ρ.Keys (ks ++ ks') (ls ++ ls') :=
  List.rel_append h h'

theorem forall₂_union {ks ls ks' ls' : List String} (h : List.Forall₂ ρ.Keys ks ls)
    (h' : List.Forall₂ ρ.Keys ks' ls') :
    List.Forall₂ ρ.Keys (FreeNames.union ks ks') (FreeNames.union ls ls') := by
  unfold FreeNames.union
  induction h' generalizing ks ls with
  | nil => exact h
  | cons hkl _ ih =>
      rw [List.foldl_cons, List.foldl_cons]
      refine ih ?_
      rw [contains_eq h hkl]
      split
      · exact h
      · exact forall₂_append h (.cons hkl .nil)

end Renaming

/-! ### Trees -/

/-- Heads of the same kind are two operators, two functions, or two list literals. -/
theorem Head.cases_of_kind {h k : Head} (hkind : h.kind = k.kind) :
    (∃ o p, h = .op o ∧ k = .op p) ∨ (∃ f g, h = .call f ∧ k = .call g) ∨ h = .list ∧ k = .list := by
  cases h <;> cases k <;> simp_all [Head.kind]

/-- A value that is put in the place of another at a leaf: the names change, and everything else stays.
Texts with slots are left out unless all names stay. -/
inductive Value.Renamed (ρ : Renaming) : Value → Value → Prop
  | name {a b : String} (hints hints' : List String) (h : ρ.names a b) :
      Renamed ρ (.name a hints) (.name b hints')
  | inert {v : Value} (h : v.isInert = true) : Renamed ρ v v
  | same {v : Value} (h : ρ.IsIdentity) : Renamed ρ v v

/-- A tree with other names in it. The names of functions and operators only differ in case. -/
inductive Tree.Renamed (ρ : Renaming) : Tree → Tree → Prop
  | leaf {v w : Value} (h : v.Renamed ρ w) : Renamed ρ (.leaf v) (.leaf w)
  | node {h k : Head} {ts us : List Tree} (hkind : h.kind = k.kind) (hkey : h.key? = k.key?)
      (hargs : List.Forall₂ (Renamed ρ) ts us) : Renamed ρ (.node h ts) (.node k us)

namespace Tree.Renamed

variable {ρ : Renaming} {t u : Tree}

theorem kind_eq (h : t.Renamed ρ u) : t.kind = u.kind := by
  cases h with
  | leaf h => cases h <;> rfl
  | node hkind => exact hkind

theorem name? (h : t.Renamed ρ u) : Option.Rel ρ.names t.name? u.name? := by
  cases h with
  | @leaf v w h =>
      cases h with
      | name hints hints' hab => exact .some hab
      | inert hv =>
          rw [Value.name?_of_isInert hv]
          exact .none
      | same hid =>
          cases v with
          | name n hints => exact .some (hid _)
          | _ => exact .none
  | node => exact .none

theorem key? (h : t.Renamed ρ u) : Option.Rel ρ.Keys t.key? u.key? := by
  unfold Tree.key?
  rcases or_of_optionRel h.name? with ⟨ht, hu⟩ | ⟨a, b, ht, hu, hab⟩
  · rw [ht, hu]
    exact .none
  · rw [ht, hu]
    exact .some hab.keys

theorem elements? (h : t.Renamed ρ u) :
    Option.Rel (List.Forall₂ (Tree.Renamed ρ)) t.elements? u.elements? := by
  cases h with
  | leaf => exact .none
  | node hkind hkey hargs =>
      rcases Head.cases_of_kind hkind with ⟨o, p, rfl, rfl⟩ | ⟨f, g, rfl, rfl⟩ | ⟨rfl, rfl⟩
      · exact .none
      · exact .none
      · exact .some hargs

theorem boundKeys (h : t.Renamed ρ u) : List.Forall₂ ρ.Keys t.boundKeys u.boundKeys := by
  unfold Tree.boundKeys
  rcases or_of_optionRel h.key? with ⟨ht, hu⟩ | ⟨k, l, ht, hu, hkl⟩
  · rw [ht, hu]
    rcases or_of_optionRel h.elements? with ⟨ht, hu⟩ | ⟨xs, ys, ht, hu, hitems⟩
    · rw [ht, hu]
      exact .nil
    · rw [ht, hu]
      exact forall₂_filterMap hitems fun _ _ hxy => hxy.key?
  · rw [ht, hu]
    exact .cons hkl .nil

end Tree.Renamed

/-- Renamed nodes bind renamed names in the same arguments. -/
theorem Tree.binding_renamed {ρ : Renaming} {h k : Head} (hkey : h.key? = k.key?) {ts us : List Tree}
    (hargs : List.Forall₂ (Tree.Renamed ρ) ts us) :
    List.Forall₂ ρ.Keys (binding h ts).1 (binding k us).1 ∧ (binding h ts).2 = (binding k us).2 := by
  have hbinding : binding h us = binding k us := by
    unfold binding
    rw [hkey]
  rw [← hbinding]
  rcases binding_cases h ts with ⟨t, names, rest, hk, rfl, heq⟩ | ⟨names, t, rest, hk, rfl, heq⟩ | hnone
  · obtain _ | ⟨-, hrest⟩ := hargs
    obtain _ | ⟨hnames, -⟩ := hrest
    rw [heq, show binding h (_ :: _ :: _) = _ by unfold binding; rw [hk]]
    exact ⟨hnames.boundKeys, rfl⟩
  · obtain _ | ⟨hnames, hrest⟩ := hargs
    obtain _ | ⟨-, -⟩ := hrest
    rw [heq, show binding h (_ :: _ :: _) = _ by unfold binding; rw [hk]]
    exact ⟨hnames.boundKeys, rfl⟩
  · rw [hnone ts rfl, hnone us hargs.length_eq.symm]
    exact ⟨.nil, rfl⟩

/-! ### Free names -/

namespace FreeNames

variable {ρ : Renaming}

/-- What finds the names in a text finds renamed names, if the text is inert or all names stay. -/
def RenamesTexts (ρ : Renaming) (inText inText' : List String → String → Outcome (List String)) : Prop :=
  ∀ bound bound' s, List.Forall₂ ρ.Keys bound bound' →
    (s.toList.any Text.isBrace = false ∨ ρ.IsIdentity) →
      Agrees (List.Forall₂ ρ.Keys) (inText bound s) (inText' bound' s)

variable {inText inText' : List String → String → Outcome (List String)}

theorem ofTreesWith_renamed {inner inner' outer outer' : List String} {ts us : List Tree}
    (hinner : List.Forall₂ (fun t u => Agrees (List.Forall₂ ρ.Keys) (ofTreeWith inText inner t)
      (ofTreeWith inText' inner' u)) ts us)
    (houter : List.Forall₂ (fun t u => Agrees (List.Forall₂ ρ.Keys) (ofTreeWith inText outer t)
      (ofTreeWith inText' outer' u)) ts us) (count : Nat) {found found' : List String}
    (hfound : List.Forall₂ ρ.Keys found found') :
    Agrees (List.Forall₂ ρ.Keys) (ofTreesWith inText inner outer count found ts)
      (ofTreesWith inText' inner' outer' count found' us) := by
  induction hinner generalizing count found found' with
  | nil =>
      rw [ofTreesWith, ofTreesWith]
      exact .ok hfound
  | cons htu _ ih =>
      cases houter with
      | cons htu' hrest' =>
          rw [ofTreesWith, ofTreesWith]
          refine Agrees.bind (R := List.Forall₂ ρ.Keys) ?_ fun more more' hmore =>
            ih hrest' (count - 1) (Renaming.forall₂_union hfound hmore)
          split
          · exact htu'
          · exact htu

theorem ofTreeWith_renamed (htext : RenamesTexts ρ inText inText') {t u : Tree} (h : t.Renamed ρ u)
    {bound bound' : List String} (hbound : List.Forall₂ ρ.Keys bound bound') :
    Agrees (List.Forall₂ ρ.Keys) (ofTreeWith inText bound t) (ofTreeWith inText' bound' u) := by
  induction t using Tree.ind generalizing u bound bound' with
  | leaf v =>
      have hname {a b : String} (hab : ρ.names a b) (hints hints' : List String) :
          Agrees (List.Forall₂ ρ.Keys) (ofTreeWith inText bound (.leaf (.name a hints)))
            (ofTreeWith inText' bound' (.leaf (.name b hints'))) := by
        rw [ofTreeWith, ofTreeWith, Renaming.contains_eq hbound hab.keys]
        refine .ok ?_
        split
        · exact .nil
        · exact .cons hab.keys .nil
      have hsame {s : String} (safe latex : Bool)
          (hs : s.toList.any Text.isBrace = false ∨ ρ.IsIdentity) :
          Agrees (List.Forall₂ ρ.Keys) (ofTreeWith inText bound (.leaf (.text s safe latex)))
            (ofTreeWith inText' bound' (.leaf (.text s safe latex))) := by
        rw [ofTreeWith, ofTreeWith]
        cases safe with
        | true => exact .ok .nil
        | false => exact htext bound bound' s hbound hs
      cases h with
      | leaf h =>
          cases h with
          | name hints hints' hab => exact hname hab hints hints'
          | @inert v hv =>
              cases v with
              | name => cases hv
              | text s safe latex => exact hsame safe latex (.inl ((Bool.not_eq_true' _).mp hv))
              | _ =>
                  rw [ofTreeWith, ofTreeWith]
                  · exact .ok .nil
                  all_goals intros; contradiction
          | @same v hid =>
              cases v with
              | name n hints => exact hname (hid _) hints hints
              | text s safe latex => exact hsame safe latex (.inr hid)
              | _ =>
                  rw [ofTreeWith, ofTreeWith]
                  · exact .ok .nil
                  all_goals intros; contradiction
  | node h args ih =>
      cases h with
      | node hkind hkey hargs =>
          obtain ⟨hnames, hcount⟩ := Tree.binding_renamed hkey hargs
          rw [ofTreeWith, ofTreeWith]
          dsimp only
          rw [hcount]
          have hinner := Renaming.forall₂_append hnames hbound
          exact ofTreesWith_renamed (forall₂_of_mem hargs fun t ht u htu => ih t ht htu hinner)
            (forall₂_of_mem hargs fun t ht u htu => ih t ht htu hbound) _ .nil

/-- The names in texts, which are read in the same way if all names stay. -/
theorem renamesTexts_ofTextWith {read read' : String → Outcome (Option Tree)}
    (hread : ρ.IsIdentity → read = read') (depth : Nat) :
    RenamesTexts ρ (ofTextWith read depth) (ofTextWith read' depth) := by
  intro bound bound' s hbound hs
  rcases hs with hinert | hid
  · rw [ofTextWith_of_no_brace read _ _ hinert, ofTextWith_of_no_brace read' _ _ hinert]
    exact .ok .nil
  · rw [hread hid, hid.eq_of_keys hbound]
    refine .refl fun names hnames => ?_
    refine List.forall₂_same.2 fun k hk => ?_
    have hlower := areKeys_ofTextWith read' depth bound' s names hnames k hk
    exact ⟨hid k, hlower, hlower⟩

/-- The free names of a renamed tree are the renamed ones. -/
theorem ofTree_renamed {read read' : String → Outcome (Option Tree)}
    (hread : ρ.IsIdentity → read = read') {t u : Tree} (h : t.Renamed ρ u) :
    Agrees (List.Forall₂ ρ.Keys) (ofTree read [] t) (ofTree read' [] u) :=
  ofTreeWith_renamed (fun bound bound' s => renamesTexts_ofTextWith hread (s.length + 1) bound bound' s)
    h .nil

end FreeNames

/-! ### Scopes -/

/-- Two scopes with the same functions that give renamed names the same values. Custom functions are left
out unless all names stay. -/
structure Scope.Renamed (ρ : Renaming) (s s' : Scope) : Prop where
  functions : s'.functions = s.functions
  value : ∀ {a b : String}, ρ.names a b → s'.value? b = s.value? a
  noCustom : ρ.IsIdentity ∨ s.EachSignature fun _ f => ∀ parameters result t,
    f.body ≠ .custom parameters result t

/-- What is done in renamed scopes has the same outcome. -/
def Renaming.Same (ρ : Renaming) (f g : Scope → Action Value) : Prop :=
  ∀ s s' : Scope, s.Renamed ρ s' → Action.SameOutcome (f s) (g s')

namespace Scope.Renamed

variable {ρ : Renaming} {s s' : Scope}

theorem signatures (h : s.Renamed ρ s') (name : String) : s'.signatures name = s.signatures name := by
  unfold Scope.signatures
  rw [h.functions]

theorem signatures_of_lower (h : s.Renamed ρ s') {a b : String} (hab : Text.lower a = Text.lower b) :
    s'.signatures b = s.signatures a := by
  rw [h.signatures]
  unfold Scope.signatures
  rw [hab]

theorem binds (h : s.Renamed ρ s') {a b : String} (hab : ρ.names a b) : s'.binds b = s.binds a := by
  unfold Scope.binds
  rw [h.value hab]

theorem child (h : s.Renamed ρ s') : s.child.Renamed ρ s'.child where
  functions := by
    unfold Scope.child
    rw [h.functions]
  value := h.value
  noCustom := h.noCustom.imp id fun hnone => hnone.child

theorem bind (h : s.Renamed ρ s') {a b : String} (hab : ρ.names a b) (v : Value) :
    (s.bind a v).Renamed ρ (s'.bind b v) where
  functions := h.functions
  value {c d} hcd := by
    rw [Scope.value?_bind, Scope.value?_bind, h.value hcd]
    have hiff := ρ.injective hcd hab
    by_cases hc : Text.lower c = Text.lower a
    · rw [if_pos hc, if_pos (hiff.1 hc)]
    · rw [if_neg hc, if_neg fun hd => hc (hiff.2 hd)]
  noCustom := h.noCustom

theorem bindAll (h : s.Renamed ρ s') {as bs : List String} (hab : List.Forall₂ ρ.names as bs)
    (vs : List Value) : (s.bindAll (as.zip vs)).Renamed ρ (s'.bindAll (bs.zip vs)) := by
  induction hab generalizing s s' vs with
  | nil => exact h
  | cons hab _ ih =>
      cases vs with
      | nil => exact h
      | cons v vs => exact ih (h.bind hab v) vs

/-- If all names stay, source text is read in the same way. -/
theorem tree_eq (h : s.Renamed ρ s') (hid : ρ.IsIdentity) : s.tree = s'.tree := by
  have hreads : s.readsAsProduct = s'.readsAsProduct := by
    funext name
    unfold Scope.readsAsProduct
    rw [h.signatures, h.binds (hid _)]
  unfold Scope.tree
  rw [hreads]

end Scope.Renamed

/-- A scope agrees with itself on names in any case. -/
theorem Scope.renamed_identity (s : Scope) : s.Renamed Renaming.identity s where
  functions := rfl
  value {a b} hab := by
    unfold Scope.value?
    rw [show Text.lower a = Text.lower b from hab]
  noCustom := .inl Renaming.isIdentity_identity

/-! ### Arguments of constructs -/

/-- A renamed argument of a construct. -/
structure Suspended.Renamed (ρ : Renaming) (a b : Suspended) : Prop where
  tree : a.tree.Renamed ρ b.tree
  value : ρ.Same a.value b.value
  parts : List.Forall₂ ρ.Same a.parts b.parts

open MathExpr.Action (SameOutcome Alike)

namespace Construct

variable {ρ : Renaming} {s s' : Scope}

theorem evalConditional_renamed (hs : s.Renamed ρ s') {a₁ a₂ b₁ b₂ c₁ c₂ : Suspended}
    (ha : a₁.Renamed ρ a₂) (hb : b₁.Renamed ρ b₂) (hc : c₁.Renamed ρ c₂) :
    SameOutcome (evalConditional s a₁ b₁ c₁) (evalConditional s' a₂ b₂ c₂) := by
  refine (ha.value s s' hs).bind fun v => ?_
  cases v with
  | boolean b =>
      cases b with
      | true => exact hb.value s s' hs
      | false => exact hc.value s s' hs
  | _ => exact SameOutcome.refl _

theorem evalCases_renamed (hs : s.Renamed ρ s') :
    {as bs : List Suspended} → List.Forall₂ (Suspended.Renamed ρ) as bs →
      SameOutcome (evalCases s as) (evalCases s' bs)
  | _, _, .nil => SameOutcome.refl _
  | _, _, .cons h .nil => h.value s s' hs
  | _, _, .cons hcondition (.cons hitem hrest) => by
      refine (hcondition.value s s' hs).bind fun v => ?_
      cases v with
      | boolean b =>
          cases b with
          | true => exact hitem.value s s' hs
          | false => exact evalCases_renamed hs hrest
      | _ => exact SameOutcome.refl _

theorem evalRepetition_renamed (hs : s.Renamed ρ s') {a₁ a₂ b₁ b₂ : Suspended}
    (ha : a₁.Renamed ρ a₂) (hb : b₁.Renamed ρ b₂) :
    SameOutcome (evalRepetition s a₁ b₁) (evalRepetition s' a₂ b₂) := by
  refine (hb.value s s' hs).bind fun v => ?_
  cases v with
  | number n =>
      refine (SameOutcome.refl _).bind fun count => ?_
      refine (SameOutcome.mapM fun _ _ => ha.value s s' hs).bind fun vs => ?_
      exact SameOutcome.refl _
  | _ => exact SameOutcome.refl _

/-! #### Loops -/

/-- Renamed names of a loop. -/
inductive LoopNames.Renamed (ρ : Renaming) : LoopNames → LoopNames → Prop
  | single {a b : String} (h : ρ.names a b) : Renamed ρ (.single a) (.single b)
  | several {as bs : List String} (h : List.Forall₂ ρ.names as bs) : Renamed ρ (.several as) (.several bs)

theorem loopNames?_renamed {t u : Tree} (h : t.Renamed ρ u) :
    Option.Rel (LoopNames.Renamed ρ) (loopNames? t) (loopNames? u) := by
  unfold loopNames?
  rcases or_of_optionRel h.name? with ⟨ht, hu⟩ | ⟨a, b, ht, hu, hab⟩
  · rw [ht, hu]
    rcases or_of_optionRel h.elements? with ⟨ht, hu⟩ | ⟨xs, ys, ht, hu, hitems⟩
    · rw [ht, hu]
      exact .none
    · rw [ht, hu]
      dsimp only
      rcases or_of_optionRel (optionRel_mapM hitems fun _ _ hxy => hxy.name?) with
        ⟨ht, hu⟩ | ⟨as, bs, ht, hu, hab⟩
      · rw [ht, hu]
        exact .none
      · rw [ht, hu]
        exact .some (.several hab)
  · rw [ht, hu]
    exact .some (.single hab)

theorem loopScope_renamed (hs : s.Renamed ρ s') {ns ns' : LoopNames} (h : ns.Renamed ρ ns') (v : Value) :
    (loopScope s v ns).Renamed ρ (loopScope s' v ns') := by
  cases h with
  | single hab => exact hs.child.bind hab v
  | several hab => exact hs.child.bindAll hab _

theorem evalMap_renamed (hs : s.Renamed ρ s') {a₁ a₂ b₁ b₂ c₁ c₂ : Suspended}
    (ha : a₁.Renamed ρ a₂) (hb : b₁.Renamed ρ b₂) (hc : c₁.Renamed ρ c₂) :
    SameOutcome (evalMap s a₁ b₁ c₁) (evalMap s' a₂ b₂ c₂) := by
  refine (hc.value s s' hs).bind fun v => ?_
  refine (SameOutcome.refl (elements v)).bind fun items => ?_
  rcases or_of_optionRel (loopNames?_renamed hb.tree) with ⟨h₁, h₂⟩ | ⟨ns, ns', h₁, h₂, hns⟩
  · rw [h₁, h₂]
    exact SameOutcome.refl _
  · rw [h₁, h₂]
    refine (SameOutcome.mapM fun v _ => ?_).bind fun vs => SameOutcome.refl _
    exact ha.value _ _ (loopScope_renamed hs hns v)

/-! #### Questions about kinds -/

theorem all_binds_renamed (hs : s.Renamed ρ s') {ks ls : List String} (h : List.Forall₂ ρ.Keys ks ls) :
    ks.all s.binds = ls.all s'.binds := by
  induction h with
  | nil => rfl
  | cons hkl _ ih => rw [List.all_cons, List.all_cons, ih, hs.binds hkl.names]

/-- A name without a value is of the kind of names. -/
theorem kindOfUnbound_of_unbound {kind : String} {t : Tree} {n : String} (hn : t.name? = some n)
    (h : s.binds n = false) : kindOfUnbound s kind t = .ok (some (kind == "name")) := by
  unfold kindOfUnbound
  rw [hn]
  simp only [h]
  rfl

theorem kindOfUnbound_renamed (hs : s.Renamed ρ s') (kind : String) {t u : Tree} (h : t.Renamed ρ u) :
    kindOfUnbound s kind t = kindOfUnbound s' kind u := by
  have hfree (hbinds : ∀ n, t.name? = some n → s.binds n = true)
      (hbinds' : ∀ n, u.name? = some n → s'.binds n = true) :
      kindOfUnbound s kind t = kindOfUnbound s' kind u := by
    rw [kindOfUnbound_eq hbinds, kindOfUnbound_eq hbinds', h.kind_eq]
    rcases (FreeNames.ofTree_renamed hs.tree_eq h).or with ⟨ks, ls, ht, hu, hkeys⟩ | ⟨e, ht, hu⟩
    · rw [ht, hu]
      show Except.ok (if ks.all s.binds then none else some _) = Except.ok _
      rw [all_binds_renamed hs hkeys]
    · rw [ht, hu]
      rfl
  rcases or_of_optionRel h.name? with ⟨ht, hu⟩ | ⟨a, b, ht, hu, hab⟩
  · rw [ht, hu] at hfree
    exact hfree (fun n hn => by cases hn) fun n hn => by cases hn
  · have hbinds := hs.binds hab
    cases ha : s.binds a with
    | false =>
        rw [kindOfUnbound_of_unbound ht ha, kindOfUnbound_of_unbound hu (hbinds.trans ha)]
    | true =>
        rw [ht, hu] at hfree
        refine hfree ?_ ?_
        · rintro n ⟨⟩
          exact ha
        · rintro n ⟨⟩
          exact hbinds.trans ha

theorem evalIsa_renamed (hs : s.Renamed ρ s') {a₁ a₂ b₁ b₂ : Suspended} (ha : a₁.Renamed ρ a₂)
    (hb : b₁.Renamed ρ b₂) : SameOutcome (evalIsa s a₁ b₁) (evalIsa s' a₂ b₂) := by
  refine (hb.value s s' hs).bind fun v => ?_
  cases v with
  | text kind safe latex =>
      dsimp only
      rw [kindOfUnbound_renamed hs kind ha.tree]
      refine (SameOutcome.refl _).bind fun decided => ?_
      cases decided with
      | some b => exact SameOutcome.refl _
      | none => exact (ha.value s s' hs).bind fun v => SameOutcome.refl _
  | _ => exact SameOutcome.refl _

/-! #### Attempts -/

theorem define_renamed (hs : s.Renamed ρ s') {ks ls : List String} (hkeys : List.Forall₂ ρ.Keys ks ls)
    {fs gs : List (Scope → Action Value)} (h : List.Forall₂ ρ.Same fs gs) :
    Alike (Scope.Renamed ρ) (define s (ks.zip fs)) (define s' (ls.zip gs)) := by
  induction hkeys generalizing s s' fs gs with
  | nil => exact .pure hs
  | cons hkl _ ih =>
      cases h with
      | nil => exact .pure hs
      | cons hfg hrest =>
          refine (hfg s s' hs).alike.bind fun v w hvw => ?_
          rw [hvw]
          exact ih (hs.bind hkl.names w) hrest

theorem meets_renamed (hs : s.Renamed ρ s') {fs gs : List (Scope → Action Value)}
    (h : List.Forall₂ ρ.Same fs gs) : SameOutcome (meets s fs) (meets s' gs) := by
  induction h with
  | nil => exact SameOutcome.refl _
  | cons hfg _ ih =>
      refine (hfg s s' hs).bind fun v => ?_
      cases v with
      | boolean b =>
          cases b with
          | true => exact ih
          | false => exact SameOutcome.refl _
      | _ => exact SameOutcome.refl _

theorem filterMap_value?_renamed (hs : s.Renamed ρ s') {ks ls : List String}
    (hkeys : List.Forall₂ ρ.Keys ks ls) : ks.filterMap s.value? = ls.filterMap s'.value? := by
  induction hkeys with
  | nil => rfl
  | cons hkl _ ih => rw [List.filterMap_cons, List.filterMap_cons, ih, hs.value hkl.names]

theorem attemptOnce_renamed (hs : s.Renamed ρ s') {ks ls : List String}
    (hkeys : List.Forall₂ ρ.Keys ks ls) {ds₁ ds₂ rs₁ rs₂ : List (Scope → Action Value)}
    (hd : List.Forall₂ ρ.Same ds₁ ds₂) (hr : List.Forall₂ ρ.Same rs₁ rs₂) :
    SameOutcome (attemptOnce s ks ds₁ rs₁) (attemptOnce s' ls ds₂ rs₂) := by
  refine (define_renamed hs.child hkeys hd).bind_sameOutcome fun inner inner' hinner => ?_
  refine (meets_renamed hinner hr).bind fun met => ?_
  rw [filterMap_value?_renamed hinner hkeys]
  exact SameOutcome.refl _

theorem evalSatisfy_renamed (hs : s.Renamed ρ s') {a₁ a₂ b₁ b₂ c₁ c₂ : Suspended} {x y : Action Int}
    (ha : a₁.Renamed ρ a₂) (hb : b₁.Renamed ρ b₂) (hc : c₁.Renamed ρ c₂) (hcount : SameOutcome x y) :
    SameOutcome (evalSatisfy s a₁ b₁ c₁ x) (evalSatisfy s' a₂ b₂ c₂ y) := by
  have hlist {a b : Suspended} (h : a.Renamed ρ b) :
      a.tree.elements?.isNone = b.tree.elements?.isNone := by
    have helements := h.tree.elements?
    generalize a.tree.elements? = x at helements
    generalize b.tree.elements? = y at helements
    cases helements <;> rfl
  have hkeys := ha.tree.boundKeys
  unfold evalSatisfy
  simp only [List.find?_cons, hlist ha, hlist hb, hlist hc]
  cases a₂.tree.elements?.isNone with
  | true => exact SameOutcome.fail rfl
  | false =>
  cases b₂.tree.elements?.isNone with
  | true => exact SameOutcome.fail rfl
  | false =>
  cases c₂.tree.elements?.isNone with
  | true => exact SameOutcome.fail rfl
  | false =>
      show SameOutcome (attemptAll s a₁.tree.boundKeys b₁.parts c₁.parts x)
        (attemptAll s' a₂.tree.boundKeys b₂.parts c₂.parts y)
      unfold attemptAll
      rw [hkeys.length_eq, hb.parts.length_eq]
      split
      · exact SameOutcome.refl _
      · refine hcount.bind fun n => ?_
        refine (sameOutcome_attempts ?_ n.toNat).bind fun v => SameOutcome.refl _
        exact attemptOnce_renamed hs hkeys hb.parts hc.parts

/-- A construct has the same outcome for renamed arguments in renamed scopes. -/
theorem eval_renamed (hs : s.Renamed ρ s') (c : Construct) {as bs : List Suspended}
    (h : List.Forall₂ (Suspended.Renamed ρ) as bs) : SameOutcome (c.eval s as) (c.eval s' bs) := by
  cases c with
  | conditional =>
      rcases h with _ | ⟨ha, _ | ⟨hb, _ | ⟨hc, _ | ⟨hd, hrest⟩⟩⟩⟩
      case cons.cons.cons.nil => exact evalConditional_renamed hs ha hb hc
      all_goals exact SameOutcome.fail rfl
  | cases => exact evalCases_renamed hs h
  | repetition =>
      rcases h with _ | ⟨ha, _ | ⟨hb, _ | ⟨hc, hrest⟩⟩⟩
      case cons.cons.nil => exact evalRepetition_renamed hs ha hb
      all_goals exact SameOutcome.fail rfl
  | map =>
      rcases h with _ | ⟨ha, _ | ⟨hb, _ | ⟨hc, _ | ⟨hd, hrest⟩⟩⟩⟩
      case cons.cons.cons.nil => exact evalMap_renamed hs ha hb hc
      all_goals exact SameOutcome.fail rfl
  | isa =>
      rcases h with _ | ⟨ha, _ | ⟨hb, _ | ⟨hc, hrest⟩⟩⟩
      case cons.cons.nil => exact evalIsa_renamed hs ha hb
      all_goals exact SameOutcome.fail rfl
  | satisfy =>
      rcases h with _ | ⟨ha, _ | ⟨hb, _ | ⟨hc, _ | ⟨hd, _ | ⟨he, hrest⟩⟩⟩⟩⟩
      case cons.cons.cons.nil => exact evalSatisfy_renamed hs ha hb hc (SameOutcome.refl _)
      case cons.cons.cons.cons.nil =>
        refine evalSatisfy_renamed hs ha hb hc ?_
        exact (hd.value s s' hs).bind fun v => SameOutcome.refl _
      all_goals exact SameOutcome.fail rfl

end Construct

/-! ### Any tree -/

/-- A tree is a renamed form of itself if all names stay. -/
theorem Tree.Renamed.refl {ρ : Renaming} (h : ρ.IsIdentity) (t : Tree) : t.Renamed ρ t := by
  induction t using Tree.ind with
  | leaf v => exact .leaf (.same h)
  | node head args ih => exact .node rfl rfl (List.forall₂_same.2 ih)

theorem Action.SameOutcome.foldlM {α β : Type} {f g : β → α → Action β} {items : List α}
    (h : ∀ b, ∀ a ∈ items, SameOutcome (f b a) (g b a)) (b : β) :
    SameOutcome (items.foldlM f b) (items.foldlM g b) := by
  induction items generalizing b with
  | nil => exact SameOutcome.refl _
  | cons a rest ih =>
      rw [List.foldlM_cons, List.foldlM_cons]
      refine (h b a List.mem_cons_self).bind fun b => ?_
      exact ih (fun b a ha => h b a (List.mem_cons_of_mem _ ha)) b

namespace Evaluate

variable {ρ : Renaming} {deeper : Evaluator} {s s' : Scope}

/-- Renamed trees have the same outcome in renamed scopes. -/
def Renames (ρ : Renaming) (f : Evaluator) : Prop :=
  ∀ (s s' : Scope) (t u : Tree), s.Renamed ρ s' → t.Renamed ρ u → SameOutcome (f s t) (f s' u)

theorem fillSlots_renamed (hdeeper : Renames ρ deeper) (hs : s.Renamed ρ s') (hid : ρ.IsIdentity)
    (content : String) : SameOutcome (fillSlots deeper s content) (fillSlots deeper s' content) := by
  unfold fillSlots
  dsimp only
  rw [hs.tree_eq hid]
  refine SameOutcome.foldlM (fun filled slot _ => (SameOutcome.refl _).bind fun t => ?_) _
  cases t with
  | none => exact SameOutcome.refl _
  | some t =>
      refine (hdeeper s s' t t hs (.refl hid t)).bind fun v => ?_
      exact (SameOutcome.refl _).bind fun filling => SameOutcome.refl _

theorem callScope_renamed (hs : s.Renamed ρ s') (hid : ρ.IsIdentity) (parameters : List String)
    (args : List Value) : (callScope s parameters args).Renamed ρ (callScope s' parameters args) where
  functions := hs.child.functions
  value {a b} hab := by
    have hvalue := hs.value hab
    unfold Scope.value? at hvalue ⊢
    rw [hid.eq hab] at hvalue ⊢
    exact Table.find?_insertAll_congr hvalue _
  noCustom := .inl hid

theorem invoke_renamed (hdeeper : Renames ρ deeper) (hs : s.Renamed ρ s') {name : String} {f : Signature}
    (hf : f ∈ s.signatures name) (args : List Value) :
    SameOutcome (invoke deeper s f args) (invoke deeper s' f args) := by
  unfold invoke
  cases hbody : f.body with
  | builtin p => exact SameOutcome.refl _
  | construct c => exact SameOutcome.refl _
  | custom parameters result t =>
      rcases hs.noCustom with hid | hnone
      · refine (hdeeper _ _ t t (callScope_renamed hs hid parameters args) (.refl hid t)).bind fun v => ?_
        exact SameOutcome.refl _
      · exact absurd hbody (hnone name f hf parameters result t)

/-- The error for a name without signatures is of the same kind for renamed trees. -/
theorem kind_unknown_renamed (hs : s.Renamed ρ s') {h k : Head} (hkind : h.kind = k.kind) {a b : String}
    (hab : Text.lower a = Text.lower b) : (unknown s h a).kind = (unknown s' k b).kind := by
  unfold unknown
  rw [hab]
  rcases Head.cases_of_kind hkind with ⟨o, p, rfl, rfl⟩ | ⟨f, g, rfl, rfl⟩ | ⟨rfl, rfl⟩
  · rfl
  · cases (Text.lower b).toList with
    | nil => rfl
    | cons c rest =>
        dsimp only
        rw [hs.signatures]
        split <;> rfl
  · rfl

theorem kind_noFit (a b : String) (args : List Value) : (noFit a args).kind = (noFit b args).kind := by
  unfold noFit
  split <;> rfl

theorem dispatch_renamed (hdeeper : Renames ρ deeper) (hs : s.Renamed ρ s') {h k : Head}
    (hkind : h.kind = k.kind) {a b : String} (hab : Text.lower a = Text.lower b) (args : List Value) :
    SameOutcome (dispatch deeper s h a args) (dispatch deeper s' k b args) := by
  unfold dispatch
  rw [hs.signatures_of_lower hab]
  cases hsignatures : s.signatures a with
  | nil => exact SameOutcome.fail (kind_unknown_renamed hs hkind hab)
  | cons f fs =>
      dsimp only
      cases hfind : (f :: fs).find? fun f => f.takes args with
      | none => exact SameOutcome.fail (kind_noFit a b args)
      | some g =>
          have hg : g ∈ s.signatures a := by
            rw [hsignatures]
            exact List.mem_of_find?_eq_some hfind
          exact invoke_renamed hdeeper hs hg args

theorem invokeUnevaluated_renamed (hdeeper : Renames ρ deeper) (hs : s.Renamed ρ s') {name : String}
    {f : Signature} (hf : f ∈ s.signatures name) (count : Nat) :
    SameOutcome (invokeUnevaluated deeper s f count) (invokeUnevaluated deeper s' f count) := by
  have hinvoke := invoke_renamed hdeeper hs hf []
  unfold invokeUnevaluated
  unfold invoke at hinvoke
  cases hbody : f.body with
  | custom parameters result t =>
      rw [hbody] at hinvoke
      dsimp only at hinvoke ⊢
      split
      · exact hinvoke
      · exact SameOutcome.refl _
  | _ => exact SameOutcome.refl _

/-- A renamed tree has the same value, and so have its arguments. -/
structure SameValue (ρ : Renaming) (deeper : Evaluator) (t u : Tree) : Prop where
  renamed : t.Renamed ρ u
  value : ρ.Same (fun s => tree deeper s false t) fun s => tree deeper s false u
  parts : List.Forall₂ ρ.Same (parts deeper t) (parts deeper u)

theorem sameValue_leaf (hdeeper : Renames ρ deeper) {v w : Value} (h : v.Renamed ρ w) :
    SameValue ρ deeper (.leaf v) (.leaf w) where
  renamed := .leaf h
  value s s' hs := by
    have hname {a b : String} (hab : ρ.names a b) (hints hints' : List String) :
        SameOutcome (tree deeper s false (.leaf (.name a hints)))
          (tree deeper s' false (.leaf (.name b hints'))) := by
      unfold tree
      rw [hs.value hab]
      cases s.value? a with
      | some v => exact SameOutcome.refl _
      | none => exact SameOutcome.fail rfl
    cases h with
    | name hints hints' hab => exact hname hab hints hints'
    | inert hv =>
        dsimp only
        rw [tree_leaf_inert deeper hv, tree_leaf_inert deeper hv]
        exact SameOutcome.refl _
    | same hid =>
        cases v with
        | name n hints => exact hname (hid _) hints hints
        | text content safe latex =>
            unfold tree text
            dsimp only
            split
            · exact (fillSlots_renamed hdeeper hs hid content).bind fun content => SameOutcome.refl _
            · exact SameOutcome.refl _
        | _ => exact SameOutcome.refl _
  parts := .nil

theorem SameValue.suspended {t u : Tree} (h : SameValue ρ deeper t u) :
    (suspended deeper t).Renamed ρ (suspended deeper u) :=
  ⟨h.renamed, h.value, h.parts⟩

theorem trees_renamed (hs : s.Renamed ρ s') {ts us : List Tree}
    (h : List.Forall₂ (SameValue ρ deeper) ts us) :
    SameOutcome (trees deeper s false ts) (trees deeper s' false us) := by
  induction h with
  | nil => exact SameOutcome.refl _
  | cons htu _ ih => exact (htu.value s s' hs).bind fun v => ih.bind fun vs => SameOutcome.refl _

theorem sameValue_node (hdeeper : Renames ρ deeper) {h k : Head} (hkind : h.kind = k.kind)
    (hkey : h.key? = k.key?) {ts us : List Tree} (hargs : List.Forall₂ (SameValue ρ deeper) ts us) :
    SameValue ρ deeper (.node h ts) (.node k us) where
  renamed := .node hkind hkey (hargs.imp fun _ _ h => h.renamed)
  value s s' hs := by
    have htrees := trees_renamed hs hargs
    have hsuspended : List.Forall₂ (Suspended.Renamed ρ) (suspend deeper ts) (suspend deeper us) := by
      rw [suspend_eq_map, suspend_eq_map, List.forall₂_map_left_iff, List.forall₂_map_right_iff]
      exact hargs.imp fun t u h => h.suspended
    dsimp only
    unfold tree
    rw [hkey]
    cases hname : h.name? with
    | none =>
        have hname' : k.name? = none := by
          unfold Head.key? at hkey
          rw [hname] at hkey
          exact Option.map_eq_none_iff.1 hkey.symm
        rw [hname']
        exact htrees.bind fun vs => SameOutcome.refl _
    | some a =>
        obtain ⟨b, hname', hab⟩ : ∃ b, k.name? = some b ∧ Text.lower b = Text.lower a := by
          unfold Head.key? at hkey
          rw [hname] at hkey
          exact Option.map_eq_some_iff.1 hkey.symm
        rw [hname']
        cases hconstruct : k.key?.bind Construct.ofName? with
        | none => exact htrees.bind fun vs => dispatch_renamed hdeeper hs hkind hab.symm vs
        | some c =>
            dsimp only
            rw [hs.signatures_of_lower hab.symm]
            cases hsignatures : s.signatures a with
            | nil => exact SameOutcome.fail rfl
            | cons f fs =>
                have hf : f ∈ s.signatures a := by
                  rw [hsignatures]
                  exact List.mem_cons_self
                dsimp only
                cases hbody : f.body with
                | construct c => exact Construct.eval_renamed hs c hsuspended
                | _ =>
                    rw [hargs.length_eq]
                    exact invokeUnevaluated_renamed hdeeper hs hf us.length
  parts := by
    unfold parts
    rw [values_eq_map, values_eq_map, List.forall₂_map_left_iff, List.forall₂_map_right_iff]
    exact hargs.imp fun t u h => h.value

/-- Renamed trees have the same value, and so have their arguments. -/
theorem sameValue_of_renamed (hdeeper : Renames ρ deeper) {t u : Tree} (h : t.Renamed ρ u) :
    SameValue ρ deeper t u := by
  induction t using Tree.ind generalizing u with
  | leaf v =>
      cases h with
      | leaf h => exact sameValue_leaf hdeeper h
  | node h args ih =>
      cases h with
      | node hkind hkey hargs =>
          exact sameValue_node hdeeper hkind hkey (forall₂_of_mem hargs fun t ht u htu => ih t ht htu)

theorem renames_atLevel (n : Nat) : Renames ρ (atLevel n) := by
  induction n with
  | zero => exact fun s s' t u _ _ => SameOutcome.refl _
  | succ n ih => exact fun s s' t u hs htu => (sameValue_of_renamed ih htu).value s s' hs

end Evaluate

/-- **Renaming.** Renamed trees have the same outcome in scopes that give the renamed names the same
values: they give the same value and draw the same random numbers, or fail with errors of the same kind. -/
theorem Scope.Renamed.sameOutcome_eval {ρ : Renaming} {s s' : Scope} (hs : s.Renamed ρ s') {t u : Tree}
    (h : t.Renamed ρ u) : SameOutcome (s.eval t) (s'.eval u) :=
  (Evaluate.sameValue_of_renamed (Evaluate.renames_atLevel _) h).value s s' hs

end MathExpr
