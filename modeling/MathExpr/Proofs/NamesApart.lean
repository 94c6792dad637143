import MathExpr.Proofs.UsedNames
import Mathlib.Data.List.Pairwise

/-!
# Names that are used once

How a pattern matches may be a matter of choice: which operand of a chain is taken, or which of
several alternatives. The names for which this matters are called loose here; which these are is a
parameter. A pattern keeps them apart (`Pattern.KeepsApart`) if of the parts that have to match
together no two use a name that is loose in one of them. For then nothing has been captured yet
under the loose names of a part when it is reached (`Pattern.IsFree.of_matcher`), and it can be matched
in another way without any difference to the others (`Pattern.Carries.pairwise`).
-/

namespace MathExpr.Pattern

mutual

/-- A pattern and its parts that are matched like the pattern: with operands in order or, if `commute` says so,
in any order. -/
def parts (commute : Bool) : Pattern → List Pattern
  | capture p key => capture p key :: parts commute p
  | anyOf ps => anyOf ps :: partsOf commute ps
  | allOf ps => allOf ps :: partsOf commute ps
  | excluding p => excluding p :: parts commute p
  | commuting p => commuting p :: if commute then parts commute p else []
  | node h ps => node h ps :: partsOf commute ps
  | p => [p]

/-- The patterns of a list and their parts that are matched like them. -/
def partsOf (commute : Bool) : List Pattern → List Pattern
  | [] => []
  | p :: ps => parts commute p ++ partsOf commute ps

end

/-- The parts of a pattern that have to match together. Those of a commutative operator are the operands of
its chain. -/
def joint : Pattern → List Pattern
  | allOf ps => ps
  | node h ps =>
    match anyOrder? true h ps with
    | some symbol => ps.flatMap (operandsOf symbol)
    | none => ps
  | _ => []

variable {commute : Bool} {p q r : Pattern} {ps : List Pattern} {h : Head} {key symbol : String}

theorem mem_partsOf : q ∈ partsOf commute ps ↔ ∃ p ∈ ps, q ∈ p.parts commute := by
  induction ps with
  | nil => simp [partsOf]
  | cons p ps ih => simp [partsOf, ih]

theorem mem_parts_self (p : Pattern) : p ∈ p.parts commute := by
  cases p <;> exact List.mem_cons_self

theorem mem_parts_operandsOf (hq : q ∈ p.operandsOf symbol) (hr : r ∈ q.parts commute) :
    r ∈ p.parts commute := by
  fun_induction operandsOf symbol p with
  | case1 o p₁ p₂ _ h₁ h₂ =>
      refine List.mem_cons_of_mem _ (mem_partsOf.2 ?_)
      rcases List.mem_append.1 hq with hq | hq
      · exact ⟨p₁, List.mem_cons_self, h₁ hq⟩
      · exact ⟨p₂, by simp, h₂ hq⟩
  | case2 | case3 => rwa [← List.mem_singleton.1 hq]

theorem mem_parts_of_mem_joint (hq : q ∈ p.joint) (hr : r ∈ q.parts commute) : r ∈ p.parts commute := by
  unfold joint at hq
  split at hq
  · exact List.mem_cons_of_mem _ (mem_partsOf.2 ⟨q, hq, hr⟩)
  · split at hq
    · obtain ⟨p, hp, hq⟩ := List.mem_flatMap.1 hq
      exact List.mem_cons_of_mem _ (mem_partsOf.2 ⟨p, hp, mem_parts_operandsOf hq hr⟩)
    · exact List.mem_cons_of_mem _ (mem_partsOf.2 ⟨q, hq, hr⟩)
  · cases hq

theorem usedNames_subset_of_mem_joint (hq : q ∈ p.joint) : q.usedNames ⊆ p.usedNames := by
  intro key hkey
  unfold joint at hq
  split at hq
  · exact mem_usedNamesOf.2 ⟨q, hq, hkey⟩
  · split at hq
    · obtain ⟨p, hp, hq⟩ := List.mem_flatMap.1 hq
      exact mem_usedNamesOf.2 ⟨p, hp, mem_usedNames_operandsOf hq hkey⟩
    · exact mem_usedNamesOf.2 ⟨q, hq, hkey⟩
  · cases hq

theorem joint_node_of_none (hany : anyOrder? true h ps = none) : (node h ps).joint = ps := by
  simp only [joint, hany]

theorem joint_node_of_some (hany : anyOrder? true h ps = some symbol) :
    (node h ps).joint = ps.flatMap (operandsOf symbol) := by
  simp only [joint, hany]

/-! ### Loose names -/

section Loose

variable (loose : Pattern → List String)

/-- Neither of two patterns uses a name that is loose in the other. -/
def Apart (p q : Pattern) : Prop :=
  (∀ key ∈ loose p, key ∉ q.usedNames) ∧ ∀ key ∈ loose q, key ∉ p.usedNames

instance : DecidableRel (Apart loose) := fun p q => by
  unfold Apart
  infer_instance

/-- Of the parts of a pattern that have to match together no two use a name that is loose in one of them. -/
def SplitsNames : Pattern → Prop
  | capture p key => key ∈ loose (capture p key) → key ∉ p.usedNames
  | p => p.joint.Pairwise (Apart loose)

instance : (p : Pattern) → Decidable (SplitsNames loose p)
  | capture p key => inferInstanceAs (Decidable (key ∈ loose (capture p key) → key ∉ p.usedNames))
  | anything | anyMore | ofKind _ | anyOf _ | allOf _ | excluding _ | commuting _ | literal _ | node _ _ =>
    inferInstanceAs (Decidable (List.Pairwise _ _))

/-- Throughout the parts of a pattern that are matched like it, no two that have to match together use a name that
is loose in one of them. -/
def KeepsApart (commute : Bool) (p : Pattern) : Prop := ∀ q ∈ p.parts commute, q.SplitsNames loose

instance (p : Pattern) : Decidable (p.KeepsApart loose commute) :=
  inferInstanceAs (Decidable (∀ q ∈ p.parts commute, q.SplitsNames loose))

/-- Nothing has been captured under the loose names of a pattern. -/
def IsFree (p : Pattern) (found : Captures) : Prop := ∀ key ∈ loose p, found.find? key = none

variable {loose}

instance : Std.Symm (Apart loose) := ⟨fun _ _ => And.symm⟩

theorem KeepsApart.splitsNames (hp : p.KeepsApart loose commute) : p.SplitsNames loose :=
  hp p (mem_parts_self p)

theorem KeepsApart.mono (hp : p.KeepsApart loose commute) (hparts : q.parts commute ⊆ p.parts commute) :
    q.KeepsApart loose commute :=
  fun r hr => hp r (hparts hr)

theorem KeepsApart.of_mem_joint (hp : p.KeepsApart loose commute) (hq : q ∈ p.joint) :
    q.KeepsApart loose commute :=
  hp.mono fun _ => mem_parts_of_mem_joint hq

theorem KeepsApart.of_anyOf (hps : (anyOf ps).KeepsApart loose commute) (hp : p ∈ ps) :
    p.KeepsApart loose commute :=
  hps.mono fun _ hr => List.mem_cons_of_mem _ (mem_partsOf.2 ⟨p, hp, hr⟩)

/-- Where two patterns have to match together, the first leaves the loose names of the second free. -/
theorem IsFree.of_matcher {t : Tree} {found found' : Captures} (hq : q.IsFree loose found)
    (hapart : Apart loose p q) (hmatch : matcher commute p t found = some found') :
    q.IsFree loose found' := by
  intro key hkey
  rw [find?_of_matcher (fun hcapture => ?_) hmatch]
  · exact hq key hkey
  · exact hapart.2 key hkey (captureNames_subset_usedNames p hcapture)

theorem IsFree.of_takes {ts left : List Tree} {found found' : Captures} (hq : q.IsFree loose found)
    (hapart : ∀ p ∈ ps, Apart loose p q) (htakes : Takes (ps.map (matcher true)) ts found left found') :
    q.IsFree loose found' :=
  (htakes.rel (Q := fun _ => True) (R := fun f f' => q.IsFree loose f → q.IsFree loose f') (fun _ => id)
    (fun hfg hgh hf => hgh (hfg hf))
    (List.forall_mem_map.2 fun p hp _ _ _ _ hmatch hf => hf.of_matcher (hapart p hp) hmatch)
    fun _ _ => trivial).1 hq

/-! ### Matching in another way -/

/-- A name is in the set if it is not loose, as far as a pattern uses it. -/
def Covers (loose : Pattern → List String) (p : Pattern) (K : String → Prop) : Prop :=
  ∀ key ∈ p.usedNames, K key ↔ key ∉ loose p

/-- Where a pattern matches a tree, it also matches a related one with operands in any order, and finds the same
under all names that are not loose. Nothing has been captured under its loose names before. -/
def Carries (loose : Pattern → List String) (commute : Bool) (R : Pattern → Tree → Tree → Prop)
    (p : Pattern) : Prop :=
  ∀ ⦃K t u f g f'⦄, Covers loose p K → R p t u → f.AgreeOn K g → p.IsFree loose f → p.IsFree loose g →
    matcher commute p t f = some f' → ∃ g', matcher true p u g = some g' ∧ f'.AgreeOn K g'

/-- It does no harm if nothing has been captured under other names, either, and these are let go. -/
theorem Carries.weaken {R : Pattern → Tree → Tree → Prop} {K : String → Prop} {t u : Tree} {f g f' : Captures}
    (hp : Carries loose commute R p) (hloose : loose p ⊆ p.usedNames) (hK : ∀ key ∈ loose p, ¬K key)
    (hR : R p t u) (hfg : f.AgreeOn K g) (hf : ∀ key ∈ p.usedNames, ¬K key → f.find? key = none)
    (hg : ∀ key ∈ p.usedNames, ¬K key → g.find? key = none) (hmatch : matcher commute p t f = some f') :
    ∃ g', matcher true p u g = some g' ∧ f'.AgreeOn K g' := by
  -- All names that are not loose may be added, for the captures agree on those that are used.
  have hcovers : Covers loose p fun key => K key ∨ key ∈ p.usedNames ∧ key ∉ loose p := fun key hkey =>
    ⟨fun hor hkeyp => hor.elim (hK key hkeyp) fun hboth => hboth.2 hkeyp, fun hnot => .inr ⟨hkey, hnot⟩⟩
  have hfg' : f.AgreeOn (fun key => K key ∨ key ∈ p.usedNames ∧ key ∉ loose p) g := by
    intro key hor
    by_cases hkey : K key
    · exact hfg key hkey
    · have hused := (hor.resolve_left hkey).1
      rw [hf key hused hkey, hg key hused hkey]
  obtain ⟨g', hmatch', hfg'⟩ := hp hcovers hR hfg' (fun key hkey => hf key (hloose hkey) (hK key hkey))
    (fun key hkey => hg key (hloose hkey) (hK key hkey)) hmatch
  exact ⟨g', hmatch', fun key hkey => hfg' key (.inl hkey)⟩

theorem Covers.of_pairwise {K : String → Prop} (hapart : ps.Pairwise (Apart loose))
    (hcovers : ∀ p ∈ ps, ∀ key ∈ p.usedNames, K key ↔ key ∉ ps.flatMap loose) (hp : p ∈ ps) :
    Covers loose p K := by
  intro key hkey
  rw [hcovers p hp key hkey, not_iff_not, List.mem_flatMap]
  refine ⟨fun ⟨q, hq, hkeyq⟩ => ?_, fun hkeyp => ⟨p, hp, hkeyp⟩⟩
  -- What is loose in another of the patterns is not used by this one.
  by_cases heq : q = p
  · exact heq ▸ hkeyq
  · exact absurd hkey ((hapart.forall hq hp heq).1 key hkeyq)

/-- Where the loose names of a pattern are those of the parts that have to match together, each of these parts
can be considered by itself. -/
theorem Covers.of_mem_joint {K : String → Prop} (hloose : loose p = p.joint.flatMap loose)
    (hapart : p.joint.Pairwise (Apart loose)) (hp : Covers loose p K) (hq : q ∈ p.joint) :
    Covers loose q K :=
  .of_pairwise hapart
    (fun _ hr key hkey => hloose ▸ hp key (usedNames_subset_of_mem_joint hr hkey)) hq

theorem IsFree.of_mem_joint {found : Captures} (hloose : loose p = p.joint.flatMap loose)
    (hp : p.IsFree loose found) (hq : q ∈ p.joint) : q.IsFree loose found :=
  fun key hkey => hp key (hloose ▸ List.mem_flatMap.2 ⟨q, hq, hkey⟩)

/-- What holds of each of some patterns that keep their loose names apart holds of them one after another. -/
theorem Carries.pairwise {R : Pattern → Tree → Tree → Prop} {K : String → Prop} {ts us : List Tree}
    {f g f' : Captures} (hps : ∀ p ∈ ps, Carries loose commute R p) (hapart : ps.Pairwise (Apart loose))
    (hcovers : ∀ p ∈ ps, Covers loose p K) (hlength : ts.length = us.length)
    (hR : ∀ x ∈ ps.zip (ts.zip us), R x.1 x.2.1 x.2.2) (hfg : f.AgreeOn K g)
    (hf : ∀ p ∈ ps, p.IsFree loose f) (hg : ∀ p ∈ ps, p.IsFree loose g)
    (hmatch : pairwise (ps.map (matcher commute)) ts f = some f') :
    ∃ g', pairwise (ps.map (matcher true)) us g = some g' ∧ f'.AgreeOn K g' := by
  induction ps generalizing ts us f g with
  | nil =>
      cases ts with
      | nil =>
          cases us with
          | nil =>
              cases hmatch
              exact ⟨g, rfl, hfg⟩
          | cons u us => cases hlength
      | cons t ts => cases hmatch
  | cons p ps ih =>
      cases ts with
      | nil => cases hmatch
      | cons t ts =>
          cases us with
          | nil => cases hlength
          | cons u us =>
              obtain ⟨f₁, hfirst, hrest⟩ := Option.bind_eq_some_iff.1 hmatch
              obtain ⟨hapart, hapartrest⟩ := List.pairwise_cons.1 hapart
              obtain ⟨hRfirst, hRrest⟩ := List.forall_mem_cons.1 hR
              obtain ⟨hp, hps⟩ := List.forall_mem_cons.1 hps
              obtain ⟨hcoverp, hcovers⟩ := List.forall_mem_cons.1 hcovers
              obtain ⟨hfp, hf⟩ := List.forall_mem_cons.1 hf
              obtain ⟨hgp, hg⟩ := List.forall_mem_cons.1 hg
              obtain ⟨g₁, hfirst', hfg₁⟩ := hp hcoverp hRfirst hfg hfp hgp hfirst
              obtain ⟨g', hrest', hfg'⟩ := ih hps hapartrest hcovers (Nat.succ.inj hlength) hRrest hfg₁
                (fun q hq => (hf q hq).of_matcher (hapart q hq) hfirst)
                (fun q hq => (hg q hq).of_matcher (hapart q hq) hfirst') hrest
              refine ⟨g', ?_, hfg'⟩
              rw [List.map_cons, Pattern.pairwise, hfirst']
              exact hrest'

end Loose

end MathExpr.Pattern
