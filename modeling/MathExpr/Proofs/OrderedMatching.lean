import MathExpr.Pattern.Matching
import MathExpr.Proofs.Equality
import MathExpr.Proofs.Leaves
import MathExpr.Proofs.Meaning

/-!
# Matching in order

A pattern of captures, values and nodes is matched from the left to the right, and what has been
captured goes from each part to the next. What this finds is described by the assignments of
trees to names (`Assignment`): captures stand for all assignments that agree with them, and a
match leaves of these the ones under which the tree is an instance of the pattern, or fails
if there are none (`Pattern.IsOrdered.solvable`). So matching succeeds exactly if the tree is an
instance of the pattern under some assignment (`Pattern.findsInstances_of_isOrdered`).

A name that is captured again is bound to the later tree. This changes no assignment, since
equality of trees without undefined numbers is an equivalence.
-/

namespace MathExpr

/-! ### Equality of trees -/

theorem Head.eqv_iff {h k : Head} : h.eqv k = true ↔ h.kind = k.kind ∧ h.name? = k.name? := by
  cases h <;> cases k <;> simp [Head.eqv, Head.kind, Head.name?]

namespace Tree

/-- No number in a tree is undefined, and its values can be built. -/
abbrev IsDefined (t : Tree) : Prop := t.Leaves Value.IsDefined

/-- The values in a tree can be built. -/
abbrev IsProper (t : Tree) : Prop := t.Leaves Value.IsProper

variable {t u v : Tree}

theorem IsDefined.isProper (h : t.IsDefined) : t.IsProper := fun w hw => (h w hw).isProper

theorem eqvAll_iff {ts us : List Tree} :
    eqvAll ts us = true ↔ List.Forall₂ (fun t u => t.eqv u = true) ts us := by
  induction ts generalizing us with
  | nil => cases us <;> simp [eqvAll]
  | cons t ts ih => cases us <;> simp [eqvAll, ih]

theorem leaf_eqv_iff {a : Value} :
    (leaf a).eqv u = true ↔ ∃ b, u = leaf b ∧ a.eqv b = true := by
  cases u <;> simp [eqv]

theorem node_eqv_iff {h : Head} {ts : List Tree} :
    (node h ts).eqv u = true ↔ ∃ k us, u = node k us ∧ h.eqv k = true ∧
      List.Forall₂ (fun t u => t.eqv u = true) ts us := by
  cases u <;> simp [eqv, eqvAll_iff]

theorem eqv_refl (ht : t.IsDefined) : t.eqv t = true := by
  induction t using ind with
  | leaf a => exact leaf_eqv_iff.2 ⟨a, rfl, Value.eqv_refl (leaves_leaf.1 ht)⟩
  | node h ts ih =>
      refine node_eqv_iff.2 ⟨h, ts, rfl, Head.eqv_iff.2 ⟨rfl, rfl⟩, List.forall₂_same.2 fun t hmem => ?_⟩
      exact ih t hmem (leaves_node.1 ht t hmem)

theorem eqv_symm (ht : t.IsProper) (hu : u.IsProper) (h : t.eqv u = true) : u.eqv t = true := by
  induction t using ind generalizing u with
  | leaf a =>
      obtain ⟨b, rfl, hab⟩ := leaf_eqv_iff.1 h
      exact leaf_eqv_iff.2 ⟨a, rfl, Value.eqv_symm (leaves_leaf.1 ht) (leaves_leaf.1 hu) hab⟩
  | node head ts ih =>
      obtain ⟨k, us, rfl, hhead, hargs⟩ := node_eqv_iff.1 h
      obtain ⟨hkind, hname⟩ := Head.eqv_iff.1 hhead
      have ht := leaves_node.1 ht
      have hu := leaves_node.1 hu
      exact node_eqv_iff.2 ⟨head, ts, rfl, Head.eqv_iff.2 ⟨hkind.symm, hname.symm⟩,
        forall₂_symm_of_mem (fun t hmem u humem => ih t hmem (ht t hmem) (hu u humem)) hargs⟩

theorem eqv_trans (ht : t.IsProper) (hu : u.IsProper) (hv : v.IsProper) (htu : t.eqv u = true)
    (huv : u.eqv v = true) : t.eqv v = true := by
  induction t using ind generalizing u v with
  | leaf a =>
      obtain ⟨b, rfl, hab⟩ := leaf_eqv_iff.1 htu
      obtain ⟨c, rfl, hbc⟩ := leaf_eqv_iff.1 huv
      exact leaf_eqv_iff.2 ⟨c, rfl, Value.eqv_trans (leaves_leaf.1 ht) (leaves_leaf.1 hu)
        (leaves_leaf.1 hv) hab hbc⟩
  | node head ts ih =>
      obtain ⟨k, us, rfl, hhead, hargs⟩ := node_eqv_iff.1 htu
      obtain ⟨k', vs, rfl, hhead', hargs'⟩ := node_eqv_iff.1 huv
      obtain ⟨hkind, hname⟩ := Head.eqv_iff.1 hhead
      obtain ⟨hkind', hname'⟩ := Head.eqv_iff.1 hhead'
      have ht := leaves_node.1 ht
      have hu := leaves_node.1 hu
      have hv := leaves_node.1 hv
      exact node_eqv_iff.2 ⟨k', vs, rfl, Head.eqv_iff.2 ⟨hkind.trans hkind', hname.trans hname'⟩,
        forall₂_trans_of_mem (fun t htmem u humem v hvmem =>
          ih t htmem (ht t htmem) (hu u humem) (hv v hvmem)) hargs hargs'⟩

end Tree

/-! ### Assignments -/

/-- An assignment of trees to names. -/
abbrev Assignment := String → {t : Tree // t.IsProper}

/-- A tree is an instance of a pattern under an assignment: values equal those of the pattern, nodes have
the same kind and name up to case and as many arguments, and what stands at a name equals its tree. -/
inductive Pattern.Instance (σ : Assignment) : Pattern → Tree → Prop
  | anything {t : Tree} : Instance σ .anything t
  | anyMore {t : Tree} : Instance σ .anyMore t
  | ofKind {kind : String} {t : Tree} (hkind : t.kind = kind) : Instance σ (.ofKind kind) t
  | capture {p : Pattern} {key : String} {t : Tree} (hinstance : Instance σ p t)
      (hkey : t.eqv (σ key).1 = true) : Instance σ (.capture p key) t
  | literal {v w : Value} (hvalue : v.eqv w = true) : Instance σ (.literal v) (.leaf w)
  | node {h k : Head} {ps : List Pattern} {ts : List Tree} (hkind : h.kind = k.kind)
      (hname : h.key? = k.key?) (hargs : List.Forall₂ (Instance σ) ps ts) :
      Instance σ (.node h ps) (.node k ts)

/-- A pattern of captures, values and nodes, without the functions that stand for something else. -/
inductive Pattern.IsOrdered : Pattern → Prop
  | anything : IsOrdered .anything
  | anyMore : IsOrdered .anyMore
  | ofKind (kind : String) : IsOrdered (.ofKind kind)
  | capture {p : Pattern} (key : String) (hp : IsOrdered p) : IsOrdered (.capture p key)
  | literal (v : Value) : IsOrdered (.literal v)
  | node (h : Head) {ps : List Pattern} (hps : ∀ p ∈ ps, IsOrdered p) : IsOrdered (.node h ps)

namespace Captures

variable {found : Captures} {key : String} {t : Tree} {σ : Assignment}

/-- The trees that have been captured have no undefined numbers. -/
def AreDefined (found : Captures) : Prop := ∀ key u, found.find? key = some u → u.IsDefined

/-- What has been captured equals what is assigned. -/
def Agrees (σ : Assignment) (found : Captures) : Prop :=
  ∀ key u, found.find? key = some u → u.eqv (σ key).1 = true

/-- The result of a match that should capture some names and asks something of assignments: of the
assignments that agree with what had been captured before those that fit are left, or there are none. -/
def Solves (names : List String) (fits : Assignment → Prop) (found : Captures) :
    Option Captures → Prop
  | some found' => found'.AreDefined ∧
      (∀ key, (found'.find? key).isSome = true ↔ (found.find? key).isSome = true ∨ key ∈ names) ∧
      ∀ σ, Agrees σ found' ↔ Agrees σ found ∧ fits σ
  | none => ∀ σ, Agrees σ found → ¬fits σ

theorem Solves.congr {names names' : List String} {fits fits' : Assignment → Prop}
    {result : Option Captures} (h : Solves names fits found result)
    (hnames : ∀ key, key ∈ names ↔ key ∈ names') (hfits : ∀ σ, fits σ ↔ fits' σ) :
    Solves names' fits' found result := by
  cases result <;> simpa only [Solves, hnames, hfits] using h

/-- One match after another. -/
theorem Solves.bind {names names' : List String} {fits fits' : Assignment → Prop}
    {result : Option Captures} (next : Captures → Option Captures)
    (h : Solves names fits found result)
    (hnext : ∀ found', found'.AreDefined → Solves names' fits' found' (next found')) :
    Solves (names ++ names') (fun σ => fits σ ∧ fits' σ) found (result.bind next) := by
  cases result with
  | none => exact fun σ hσ hfits => h σ hσ hfits.1
  | some found' =>
      obtain ⟨hdefined, hnames, hagrees⟩ := h
      have hnext := hnext found' hdefined
      change Solves _ _ _ (next found')
      cases hresult : next found' with
      | none =>
          rw [hresult] at hnext
          exact fun σ hσ hfits => hnext σ ((hagrees σ).2 ⟨hσ, hfits.1⟩) hfits.2
      | some found'' =>
          rw [hresult] at hnext
          obtain ⟨hdefined', hnames', hagrees'⟩ := hnext
          refine ⟨hdefined', fun key => ?_, fun σ => ?_⟩
          · rw [hnames', hnames, List.mem_append, or_assoc]
          · rw [hagrees', hagrees, and_assoc]

/-- A match that asks the same of all assignments and captures nothing. -/
theorem solves_if {p : Prop} [Decidable p] (hfound : found.AreDefined) :
    Solves [] (fun _ => p) found (if p then some found else none) := by
  split
  · rename_i hp
    exact ⟨hfound, by simp, by simp [hp]⟩
  · rename_i hp
    exact fun _ _ => hp

/-- A tree that is captured under a name is assigned to it. If the name has an equal tree already, the
assignments that agree with either are the same. -/
theorem solves_bind (hfound : found.AreDefined) (ht : t.IsDefined) :
    Solves [key] (fun σ => t.eqv (σ key).1 = true) found (found.bind key t) := by
  have hinsert (hsame : ∀ u, found.find? key = some u → u.eqv t = true) :
      Solves [key] (fun σ => t.eqv (σ key).1 = true) found (some (found.insert key t)) := by
    refine ⟨fun k u hu => ?_, fun k => ?_, fun σ => ⟨fun hσ => ⟨fun k u hu => ?_, ?_⟩, fun hσ k u hu => ?_⟩⟩
    · rw [Table.find?_insert] at hu
      split at hu
      · cases hu
        exact ht
      · exact hfound k u hu
    · rw [Table.find?_insert]
      split <;> simp_all
    · by_cases hk : k = key
      · subst hk
        have htσ := hσ k t (by rw [Table.find?_insert, if_pos rfl])
        exact Tree.eqv_trans (hfound k u hu).isProper ht.isProper (σ k).2 (hsame u hu) htσ
      · exact hσ k u (by rwa [Table.find?_insert, if_neg hk])
    · exact hσ key t (by rw [Table.find?_insert, if_pos rfl])
    · rw [Table.find?_insert] at hu
      split at hu
      · rename_i hk
        cases hu
        rw [hk]
        exact hσ.2
      · exact hσ.1 k u hu
  unfold Captures.bind
  cases hu : found.find? key with
  | none => exact hinsert fun u hu' => nomatch hu.symm.trans hu'
  | some u =>
      dsimp only
      by_cases heqv : u.eqv t = true
      · rw [if_pos heqv]
        exact hinsert fun u' hu' => Option.some.inj (hu.symm.trans hu') ▸ heqv
      · rw [if_neg heqv]
        intro σ hσ htσ
        have hu' := (hfound key u hu).isProper
        exact heqv (Tree.eqv_trans hu' (σ key).2 ht.isProper (hσ key u hu)
          (Tree.eqv_symm ht.isProper (σ key).2 htσ))

end Captures

/-! ### Patterns -/

namespace Pattern

open Captures (Solves)

variable {p : Pattern} {t : Tree} {found : Captures}

/-- What matching a pattern with any tree without undefined numbers should come to. -/
def Solvable (p : Pattern) : Prop :=
  ∀ (t : Tree) (found : Captures), t.IsDefined → found.AreDefined →
    Solves p.captureNames (fun σ => p.Instance σ t) found (matcher false p t found)

/-- The arguments of a node are matched one after another. -/
theorem solves_pairwise {ps : List Pattern} {ts : List Tree} (hps : ∀ p ∈ ps, p.Solvable)
    (hts : ∀ t ∈ ts, t.IsDefined) (hfound : found.AreDefined) :
    Solves (captureNamesOf ps) (fun σ => List.Forall₂ (Instance σ) ps ts) found
      (pairwise (matchers false ps) ts found) := by
  induction ps generalizing ts found with
  | nil =>
      cases ts with
      | nil => exact ⟨hfound, by simp [captureNamesOf], by simp⟩
      | cons t ts => exact fun σ _ h => nomatch h
  | cons p ps ih =>
      cases ts with
      | nil => exact fun σ _ h => nomatch h
      | cons t ts =>
          have hfirst := hps p List.mem_cons_self t found (hts t List.mem_cons_self) hfound
          have hrest := hfirst.bind (pairwise (matchers false ps) ts) fun found' hfound' =>
            ih (fun q hq => hps q (List.mem_cons_of_mem p hq))
              (fun u hu => hts u (List.mem_cons_of_mem t hu)) hfound'
          exact hrest.congr (fun _ => Iff.rfl) fun σ => List.forall₂_cons.symm

theorem instance_node_iff {σ : Assignment} {h k : Head} {ps : List Pattern} {ts : List Tree} :
    Instance σ (.node h ps) (.node k ts) ↔
      headFits h k = true ∧ List.Forall₂ (Instance σ) ps ts := by
  simp only [headFits, Bool.and_eq_true, beq_iff_eq]
  constructor
  · intro h
    cases h with | node hkind hname hargs => exact ⟨⟨hkind, hname⟩, hargs⟩
  · exact fun h => .node h.1.1 h.1.2 h.2

/-- Matching an ordered pattern leaves the assignments under which the tree is an instance. -/
theorem IsOrdered.solvable (hp : p.IsOrdered) : p.Solvable := by
  induction hp with
  | anything | anyMore =>
      exact fun t found _ hfound => ⟨hfound, by simp [captureNames], fun σ =>
        ⟨fun hσ => ⟨hσ, by constructor⟩, fun hσ => hσ.1⟩⟩
  | ofKind kind =>
      intro t found _ hfound
      have hiff (σ : Assignment) : Instance σ (.ofKind kind) t ↔ t.kind = kind :=
        ⟨fun h => by cases h; assumption, .ofKind⟩
      simp only [hiff, matcher]
      exact Captures.solves_if hfound
  | @capture p key _ ih =>
      intro t found ht hfound
      have hiff (σ : Assignment) : Instance σ p t ∧ t.eqv (σ key).1 = true ↔
          Instance σ (.capture p key) t :=
        ⟨fun h => .capture h.1 h.2, fun h => by cases h; exact ⟨‹_›, ‹_›⟩⟩
      have hbind := (ih t found ht hfound).bind (Captures.bind key t)
        fun found' hfound' => Captures.solves_bind hfound' ht
      exact hbind.congr (by simp [captureNames, or_comm]) hiff
  | literal v =>
      intro t found _ hfound
      cases t with
      | node h ts => exact fun σ _ h => nomatch h
      | leaf w =>
          have hiff (σ : Assignment) : Instance σ (.literal v) (.leaf w) ↔ v.eqv w = true :=
            ⟨fun h => by cases h; assumption, .literal⟩
          simp only [hiff, matcher]
          exact Captures.solves_if hfound
  | node h _ ih =>
      intro t found ht hfound
      cases t with
      | leaf w => exact fun σ _ h => nomatch h
      | node k ts =>
          simp only [instance_node_iff, matcher_node]
          by_cases hhead : headFits h k = true
          · simp only [hhead, true_and, if_true]
            exact solves_pairwise ih (Tree.leaves_node.1 ht) hfound
          · rw [if_neg hhead]
            exact fun σ _ h => hhead h.1

/-- Matching in order finds the instances of a pattern: it succeeds for them, captures under the names of
the pattern, and what it captures is an assignment under which the tree is an instance. -/
structure FindsInstances (p : Pattern) (t : Tree) : Prop where
  isSome_iff : (p.find t false).isSome = true ↔ ∃ σ : Assignment, p.Instance σ t
  areDefined : ∀ found, p.find t false = some found → found.AreDefined
  names : ∀ found, p.find t false = some found →
    ∀ key, (found.find? key).isSome = true ↔ key ∈ p.captureNames
  isInstance : ∀ found, p.find t false = some found →
    ∀ σ : Assignment, (∀ key u, found.find? key = some u → (σ key).1 = u) → p.Instance σ t

/-- Matching an ordered pattern with a tree without undefined numbers is sound and complete. -/
theorem findsInstances_of_isOrdered (hp : p.IsOrdered) (ht : t.IsDefined) : p.FindsInstances t := by
  have hsolves := hp.solvable t .empty ht fun key u hu => nomatch hu
  cases hfind : p.find t false with
  | none =>
      rw [show matcher false p t .empty = none from hfind] at hsolves
      have hno : ¬∃ σ : Assignment, p.Instance σ t := by
        rintro ⟨σ, hσ⟩
        exact hsolves σ (fun _ _ hu => nomatch hu) hσ
      have hnone {found : Captures} : p.find t false ≠ some found := fun h => nomatch hfind.symm.trans h
      exact
        { isSome_iff := iff_of_false (by simp [hfind]) hno
          areDefined := fun _ h => (hnone h).elim
          names := fun _ h => (hnone h).elim
          isInstance := fun _ h => (hnone h).elim }
  | some found =>
      rw [show matcher false p t .empty = some found from hfind] at hsolves
      obtain ⟨hdefined, hnames, hagrees⟩ := hsolves
      have hinstance (σ : Assignment) (hσ : ∀ key u, found.find? key = some u → (σ key).1 = u) :
          p.Instance σ t := by
        refine ((hagrees σ).1 fun key u hu => ?_).2
        rw [hσ key u hu]
        exact Tree.eqv_refl (hdefined key u hu)
      -- What has been captured, with some tree for all other names.
      let σ : Assignment := fun key =>
        match hu : found.find? key with
        | some u => ⟨u, (hdefined key u hu).isProper⟩
        | none => ⟨t, ht.isProper⟩
      have hσ (key : String) (u : Tree) (hu : found.find? key = some u) : (σ key).1 = u := by
        simp only [σ]
        split <;> simp_all
      have hsome {found' : Captures} (h : p.find t false = some found') : found' = found :=
        Option.some.inj (h.symm.trans hfind)
      exact
        { isSome_iff := iff_of_true (by simp [hfind]) ⟨σ, hinstance σ hσ⟩
          areDefined := fun _ h => hsome h ▸ hdefined
          names := fun _ h key => by simpa [hsome h] using hnames key
          isInstance := fun _ h => hsome h ▸ hinstance }

/-- A name that stands twice captures two names that differ in case only. -/
theorem findsInstances_twice :
    let plus : Head := .op ⟨"+", .between⟩
    let p : Pattern := .node plus [.capture .anything "x", .capture .anything "x"]
    let t : Tree := .node plus [.leaf (.name "a" []), .leaf (.name "A" [])]
    p.IsOrdered ∧ t.IsDefined ∧ p.FindsInstances t := by
  intro plus p t
  have hp : p.IsOrdered := .node plus (by simp [IsOrdered.capture, IsOrdered.anything])
  have ht : t.IsDefined :=
    Tree.leaves_node.2 (by simp [Tree.leaves_leaf, Value.Proper.name])
  exact ⟨hp, ht, findsInstances_of_isOrdered hp ht⟩

/-! ### Patterns from trees -/

/-- The functions that have a meaning of their own in a pattern. -/
def reservedNames : List String :=
  ["m_any", "m_all", "m_and", "m_not", "m_number", "m_commute", "m_type"]

theorem isOrdered_ofValue (v : Value) : (ofValue v).IsOrdered := by
  unfold ofValue
  split
  · exact .anything
  · exact .anyMore
  · exact .ofKind _
  · exact .ofKind _
  · exact .literal _

theorem isOrdered_ofCall {name : String} {ps : List Pattern} (hname : Text.lower name ∉ reservedNames)
    (hps : ∀ p ∈ ps, p.IsOrdered) : (ofCall name ps).IsOrdered := by
  unfold ofCall
  split <;> simp_all [reservedNames]
  exact .node _ hps

theorem isOrdered_ofTrees {ts : List Tree} {ps : List Pattern}
    (hts : ∀ t ∈ ts, ∀ p, ofTree t = .ok p → p.IsOrdered) (h : ofTrees ts = .ok ps) :
    ∀ p ∈ ps, p.IsOrdered := by
  induction ts generalizing ps with
  | nil =>
      cases h
      exact List.forall_mem_nil _
  | cons t ts ih =>
      obtain ⟨p, hp, h⟩ := exists_of_bind_eq_ok h
      obtain ⟨ps, hps, h⟩ := exists_of_bind_eq_ok h
      cases h
      exact List.forall_mem_cons.2 ⟨hts t List.mem_cons_self p hp,
        ih (fun u hu => hts u (List.mem_cons_of_mem t hu)) hps⟩

/-- A tree without the functions that have a meaning of their own stands for an ordered pattern. -/
theorem isOrdered_ofTree (ht : ∀ name args, .node (.call name) args ∈ t.subtrees →
    Text.lower name ∉ reservedNames) (h : ofTree t = .ok p) : p.IsOrdered := by
  induction t using Tree.ind generalizing p with
  | leaf v =>
      cases h
      exact isOrdered_ofValue v
  | node head args ih =>
      have ih (t : Tree) (hmem : t ∈ args) (p : Pattern) (h : ofTree t = .ok p) : p.IsOrdered :=
        ih t hmem (fun name args hcall => ht name args (Tree.subtrees_of_mem hmem hcall)) h
      unfold ofTree at h
      split at h
      · rename_i heq
        cases heq
      · rename_i first second heq
        cases heq
        split at h
        · obtain ⟨q, hq, h⟩ := exists_of_bind_eq_ok h
          cases h
          exact .capture _ (ih first List.mem_cons_self q hq)
        · cases h
      · rename_i name args' heq
        cases heq
        have hname := ht name args List.mem_cons_self
        split at h
        · simp_all [reservedNames]
        · obtain ⟨ps, hps, h⟩ := exists_of_bind_eq_ok h
          cases h
          exact isOrdered_ofCall hname (isOrdered_ofTrees ih hps)
      · rename_i heq
        cases heq
        obtain ⟨ps, hps, h⟩ := exists_of_bind_eq_ok h
        cases h
        exact .node _ (isOrdered_ofTrees ih hps)

end Pattern

end MathExpr
