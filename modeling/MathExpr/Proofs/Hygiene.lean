import MathExpr.Proofs.Equivariance
import MathExpr.Proofs.FunctionNames
import MathExpr.Proofs.Rewriting
import MathExpr.Proofs.RuleTrees

/-!
# Hygiene

The names in a tree may be called like the names under which rules capture: simplifying a tree with its names
changed gives what simplifying the tree gives, with the names changed
(`Ruleset.simplifiesAlike_of_hasNoBraces`).

This asks that names stand as leaves of their own in the tree, and that the tree is not rewritten to one with
braces in a text: the names in braces are read when the text is evaluated, and those in a value are spelled
out where the value is made a text.
-/

namespace MathExpr

open MathExpr.Action (Alike SameOutcome runFrom)

variable {r : String → String}

/-! ### Source text -/

section

variable {κ α α' β β' : Type} {R : α → α' → Prop} {S : β → β' → Prop}

theorem Agrees.mapM {f : α → Except κ β} {g : α' → Except κ β'} {xs : List α} {ys : List α'}
    (h : List.Forall₂ R xs ys) (hfg : ∀ x y, R x y → Agrees S (f x) (g y)) :
    Agrees (List.Forall₂ S) (xs.mapM f) (ys.mapM g) := by
  induction h with
  | nil => exact .ok .nil
  | cons hxy _ ih =>
      rw [List.mapM_cons, List.mapM_cons]
      exact (hfg _ _ hxy).bind fun a b hab => ih.bind fun as bs hrest => .ok (.cons hab hrest)

theorem Agrees.imp {R' : α → α' → Prop} {x : Except κ α} {y : Except κ α'} (h : Agrees R x y)
    (hR : ∀ a b, R a b → R' a b) : Agrees R' x y := by
  cases h with
  | ok hab => exact .ok (hR _ _ hab)
  | error k => exact .error k

theorem Action.Alike.imp {R' : α → α' → Prop} {x : Action α} {y : Action α'} (h : Alike R x y)
    (hR : ∀ a b, R a b → R' a b) : Alike R' x y :=
  fun d => ⟨(h d).1.imp hR, (h d).2⟩

theorem Action.Alike.ofFault {x : Except Fault α} {y : Except Fault α'} (h : Agrees R x y) :
    Alike R (Action.ofFault x) (Action.ofFault y) := by
  cases h with
  | ok hab => exact fun _ => ⟨.ok hab, rfl⟩
  | error f => exact fun _ => ⟨.error (Failure.Kind.fault f), rfl⟩

end

namespace Tree

variable {settings : Settings}

theorem binding_rename (t : Tree) : Binding.ofTree settings (t.rename r) = Binding.ofTree settings t := by
  cases t with
  | leaf v => cases v <;> rfl
  | node h args => cases h <;> rfl

/-- The operands of an operator are written alike. -/
theorem agrees_operands (symbol : String) (args : List Tree) {texts texts' : List String}
    (h : texts.length = texts'.length) :
    Agrees (fun xs ys => xs.length = ys.length) (operands settings symbol args texts)
      (operands settings symbol (renameAll r args) texts') := by
  have hzip (n : Nat) : List.Forall₂ (fun e e' => e'.1.1 = e.1.1.rename r ∧ e'.2 = e.2)
      ((args.zip texts).zipIdx n) (((renameAll r args).zip texts').zipIdx n) := by
    rw [renameAll_eq_map]
    induction args generalizing texts texts' n with
    | nil => exact .nil
    | cons a args ih =>
        cases texts with
        | nil =>
            cases List.eq_nil_of_length_eq_zero h.symm
            exact .nil
        | cons text texts =>
            obtain ⟨text', texts', rfl⟩ := List.exists_cons_of_length_eq_add_one h.symm
            exact .cons ⟨rfl, rfl⟩ (ih (Nat.succ.inj h) (n + 1))
  refine (Agrees.mapM (S := fun _ _ => True) (hzip 0) fun e e' ⟨harg, _⟩ => ?_).imp fun _ _ h => h.length_eq
  dsimp only
  rw [harg, binding_rename]
  exact (Agrees.refl (R := Eq) fun _ _ => rfl).bind fun _ _ _ => .ok trivial

theorem agrees_sourceOfOperator (o : Operator) (args : List Tree) {texts texts' : List String}
    (h : texts.length = texts'.length) :
    Agrees (fun _ _ => True) (sourceOfOperator settings o args texts)
      (sourceOfOperator settings o (renameAll r args) texts') := by
  refine (agrees_operands o.symbol args h).bind fun xs ys hlength => ?_
  have hmany : Agrees (κ := Fault) (fun _ _ => True)
      (if o.symbol == "*" then .error .outsideDomain else .ok ((operatorText o.symbol).intercalate xs))
      (if o.symbol == "*" then .error .outsideDomain else .ok ((operatorText o.symbol).intercalate ys)) := by
    split
    · exact .error _
    · exact .ok trivial
  match xs, ys, hlength with
  | [], [], _ =>
      dsimp only
      split
      · exact .error _
      · exact .ok trivial
  | [x], [y], _ => exact .ok trivial
  | [x₁, x₂], [y₁, y₂], _ =>
      match args with
      | [a, b] => exact .ok trivial
      | [] | [_] | _ :: _ :: _ :: _ => exact hmany
  | _ :: _ :: _ :: _, _ :: _ :: _ :: _, _ => exact hmany

mutual

/-- A tree has source text if the tree with its names changed has. -/
theorem agrees_sourceWith : (t : Tree) → t.NamesAreLeaves →
    Agrees (fun _ _ => True) (t.sourceWith settings) ((t.rename r).sourceWith settings)
  | .leaf v, ht => by
      have hv := leaves_leaf.1 ht
      cases v with
      | name => exact .ok trivial
      | _ =>
          rw [rename, Value.rename_of_isNameless _ hv]
          exact .refl fun _ _ => trivial
  | .node h args, ht => by
      rw [rename, sourceWith, sourceWith]
      refine (agrees_sourcesWith args (leaves_node.1 ht)).bind fun texts texts' hlength => ?_
      cases h with
      | op o => exact agrees_sourceOfOperator o args hlength
      | call name => exact .ok trivial
      | list => exact .ok trivial

theorem agrees_sourcesWith : (ts : List Tree) → (∀ t ∈ ts, t.NamesAreLeaves) →
    Agrees (fun xs ys => xs.length = ys.length) (sourcesWith settings ts)
      (sourcesWith settings (renameAll r ts))
  | [], _ => .ok rfl
  | t :: ts, hts => by
      obtain ⟨ht, hts⟩ := List.forall_mem_cons.1 hts
      rw [renameAll, sourcesWith, sourcesWith]
      refine (agrees_sourceWith t ht).bind fun _ _ _ => (agrees_sourcesWith ts hts).bind fun _ _ hlength => ?_
      exact .ok (congrArg Nat.succ hlength)

end

end Tree

/-! ### Conditions and results -/

/-- A scope without variables and custom functions. -/
structure Scope.IsBare (s : Scope) : Prop where
  value?_eq_none : ∀ n, s.value? n = none
  noCustom : s.EachSignature fun _ f => ∀ parameters result t, f.body ≠ .custom parameters result t

namespace Scope.IsBare

variable {s : Scope}

theorem isNameless (hs : s.IsBare) : s.IsNameless where
  value n v hv := by
    rw [hs.value?_eq_none] at hv
    cases hv
  body name f hf _ _ _ hbody := absurd hbody (hs.noCustom name f hf _ _ _)

/-- Without variables all names may be changed. -/
theorem renamed (hs : s.IsBare) (ρ : Renaming) : s.Renamed ρ s where
  functions := rfl
  value _ := by rw [hs.value?_eq_none, hs.value?_eq_none]
  noCustom := .inr hs.noCustom

theorem withoutVariables
    (hs : s.EachSignature fun _ f => ∀ parameters result t, f.body ≠ .custom parameters result t) :
    s.withoutVariables.IsBare where
  value?_eq_none _ := rfl
  noCustom := hs.child

end Scope.IsBare

/-! ### Actions that are alike -/

section

variable {α α' : Type} {R : α → α' → Prop} {x : Action α} {y : Action α'}

/-- Attempts at actions that are alike have results that are related, or no results. -/
theorem Action.Alike.attempt (h : Alike R x y) :
    Alike (fun o o' => Option.Rel R o.toOption o'.toOption) (Action.attempt x) (Action.attempt y) := by
  intro d
  obtain ⟨hresult, hdraws⟩ := h d
  unfold Action.outcome at hresult hdraws ⊢
  rw [Action.runFrom_attempt, Action.runFrom_attempt]
  generalize runFrom x d = p at hresult hdraws ⊢
  generalize runFrom y d = q at hresult hdraws ⊢
  obtain ⟨e | a, d'⟩ := p <;> obtain ⟨e' | b, d''⟩ := q
  · have hkind : e.kind = e'.kind := by
      change Agrees R (.error e.kind) (.error e'.kind) at hresult
      generalize e.kind = k at hresult
      generalize e'.kind = k' at hresult
      cases hresult
      rfl
    cases e with
    | error e =>
        cases e' with
        | error e' => exact ⟨.ok .none, hdraws⟩
        | fault f => cases hkind
    | fault f =>
        cases e' with
        | error e' => cases hkind
        | fault f' =>
            cases hkind
            exact ⟨.error (Failure.Kind.fault f), hdraws⟩
  · cases hresult
  · cases hresult
  · cases hresult with
    | ok hab => exact ⟨.ok (.some hab), hdraws⟩

/-- What the first of two actions gives is related to something. -/
theorem Action.Alike.returns (h : Alike R x y) : x.Returns fun a => ∃ b, R a b := by
  intro d a d' hrun
  have hresult := (h d).1
  unfold Action.outcome at hresult
  rw [hrun] at hresult
  rcases hresult.or with ⟨_, b, ha, -, hab⟩ | ⟨k, hk, -⟩
  · cases ha
    exact ⟨b, hab⟩
  · cases hk

/-- What the first of two actions gives has a property besides. -/
theorem Action.Alike.and_returns {P : α → Prop} (h : Alike R x y) (hx : x.Returns P) :
    Alike (fun a b => R a b ∧ P a) x y := by
  intro d
  obtain ⟨hresult, hdraws⟩ := h d
  refine ⟨?_, hdraws⟩
  rcases hresult.or with ⟨a, b, ha, hb, hab⟩ | ⟨k, ha, hb⟩
  · rw [ha, hb]
    have hrun : runFrom x d = (.ok a, (runFrom x d).2) := Prod.ext (eq_ok_of_mapError ha) rfl
    exact .ok ⟨hab, hx d a _ hrun⟩
  · rw [ha, hb]
    exact .error k

end

namespace Rule

variable {s : Scope} {keys : List String} {found : Captures} {t : Tree}

/-- Conditions are true of what has been captured before and after names are changed. -/
theorem sameOutcome_areMet (hr : KeepsNamesApart r) (hs : s.IsBare) (hfound : found.Covers keys t)
    (ht : t.IsClean) (conditions : List (Option Tree))
    (hconditions : ∀ c, some c ∈ conditions → c.Leaves fun v => v.isOver keys = true) :
    SameOutcome (areMet s found conditions) (areMet s (found.rename r) conditions) := by
  induction conditions with
  | nil => exact .refl _
  | cons c rest ih =>
      have ih := ih fun c hc => hconditions c (List.mem_cons_of_mem _ hc)
      cases c with
      | none => exact .refl _
      | some c =>
          have hc := hconditions c List.mem_cons_self
          -- All names of a condition are captured, so that filling it in commutes with changing names.
          have hclean := Tree.isClean_fill hfound ht hc
          unfold areMet
          rw [Tree.fill_rename hfound c hc]
          have heval := ((hs.renamed _).sameOutcome_eval (Tree.renamed_rename hr _ hclean)).alike.attempt
          refine heval.bind_sameOutcome fun o o' ho => ?_
          rcases o with e | v <;> rcases o' with e' | w
          · exact .refl _
          · cases ho
          · cases ho
          · cases ho with
            | some hvw =>
                subst hvw
                split
                · exact ih
                · exact .refl _

end Rule

namespace Tree

variable {s : Scope}

/-- What is left of a tree when its parts are evaluated, before and after names are changed. -/
def RenamesTo (r : String → String) (u u' : Tree) : Prop := u' = u.rename r ∧ u.NamesAreLeaves

theorem evalParts_node {h : Head} {args : List Tree} (hne : ∀ t, h = .call "eval" → args ≠ [t]) :
    (node h args).evalParts s = do return node h (← evalPartsOf s args) := by
  unfold evalParts
  split
  · rename_i heq
    cases heq
  · rename_i t heq
    cases heq
    exact absurd rfl (hne t rfl)
  · rename_i heq
    cases heq
    rfl

mutual

/-- Evaluating parts of a tree gives the same before and after names are changed, with the names changed. -/
theorem alike_evalParts (hr : KeepsNamesApart r) (hs : s.IsBare) : (t : Tree) → t.IsClean →
    Alike (RenamesTo r) (t.evalParts s) ((t.rename r).evalParts s)
  | .leaf v, ht => .pure ⟨rfl, fun w hw => (ht w hw).1⟩
  | .node h args, ht => by
      by_cases heval : ∃ t, h = .call "eval" ∧ args = [t]
      · obtain ⟨t, rfl, rfl⟩ := heval
        have ht := leaves_node.1 ht t List.mem_cons_self
        have heval := ((hs.renamed _).sameOutcome_eval (renamed_rename hr t ht)).alike
        have hvalue := Scope.returns_isNameless_eval hs.isNameless fun w hw => (ht w hw).1
        show Alike _ (do return leaf (← s.eval t)) (do return leaf (← s.eval (t.rename r)))
        refine (heval.and_returns hvalue).bind fun v w hvw => ?_
        obtain ⟨rfl, hv⟩ := hvw
        -- Both evaluate to one value. It has no name in it that could be changed.
        refine .pure ⟨congrArg leaf (Value.rename_of_isNameless v hv).symm, leaves_leaf.2 ?_⟩
        exact Value.isPlain_of_isNameless hv
      · have hne : ∀ t, h = .call "eval" → args ≠ [t] := fun t hh hargs => heval ⟨t, hh, hargs⟩
        have hne' : ∀ t, h = .call "eval" → renameAll r args ≠ [t] := by
          intro u hh hargs
          match args, hargs with
          | [t], _ => exact hne t hh rfl
        rw [rename, evalParts_node hne, evalParts_node hne']
        refine (alike_evalPartsOf hr hs args (leaves_node.1 ht)).bind fun us us' hus => ?_
        exact .pure ⟨congrArg (node h) hus.1, leaves_node.2 hus.2⟩

theorem alike_evalPartsOf (hr : KeepsNamesApart r) (hs : s.IsBare) :
    (ts : List Tree) → (∀ t ∈ ts, t.IsClean) →
      Alike (fun us us' => us' = renameAll r us ∧ ∀ u ∈ us, u.NamesAreLeaves) (evalPartsOf s ts)
        (evalPartsOf s (renameAll r ts))
  | [], _ => .pure ⟨rfl, List.forall_mem_nil _⟩
  | t :: ts, hts => by
      obtain ⟨ht, hts⟩ := List.forall_mem_cons.1 hts
      refine (alike_evalParts hr hs t ht).bind fun u u' hu => ?_
      refine (alike_evalPartsOf hr hs ts hts).bind fun us us' hus => ?_
      rw [hu.1, hus.1]
      exact .pure ⟨rfl, List.forall_mem_cons.2 ⟨hu.2, hus.2⟩⟩

end

end Tree

/-! ### Rules -/

namespace Rule

variable {s : Scope} {rule : Rule} {t : Tree}

/-- Whether a rule matches no name for what it is called, and captures all names in its conditions and its
result. -/
def isHygienic (rule : Rule) : Bool :=
  rule.pattern.isPlain && rule.result.isOver rule.pattern.captureNames &&
    rule.conditions.all fun c => c.all (Tree.isOver rule.pattern.captureNames)

/-- A rule turns a tree into the same before and after names are changed, with the names changed. -/
theorem alike_transform (hr : KeepsNamesApart r) (hs : s.IsBare) (hrule : rule.isHygienic = true)
    (ht : t.IsClean) :
    Alike (Option.Rel (Tree.RenamesTo r)) (rule.transform s t) (rule.transform s (t.rename r)) := by
  rw [isHygienic, Bool.and_eq_true, Bool.and_eq_true] at hrule
  obtain ⟨⟨hpattern, hresult⟩, hconditions⟩ := hrule
  unfold transform
  rw [Pattern.find_rename hr hpattern]
  cases hfind : rule.pattern.find t false with
  | none => exact .pure .none
  | some found =>
      have hfound := Pattern.covers_of_find hpattern hfind
      have hmet := sameOutcome_areMet hr hs hfound ht rule.conditions fun c hc =>
        Tree.leaves_of_isOver (List.all_eq_true.1 hconditions (some c) hc)
      have hresult := Tree.leaves_of_isOver hresult
      have hparts := Tree.alike_evalParts hr hs _ (Tree.isClean_fill hfound ht hresult)
      rw [← Tree.fill_rename hfound _ hresult] at hparts
      dsimp only [Option.map_some]
      refine hmet.alike.bind fun met met' hmet => ?_
      subst hmet
      split
      · refine hparts.attempt.bind fun o o' ho => ?_
        rcases o with e | u <;> rcases o' with e' | u'
        · exact .pure .none
        · cases ho
        · cases ho
        · exact .pure ho
      · exact .pure .none

end Rule

namespace Simplify

variable {s : Scope} {rules : List Rule} {t : Tree}

theorem alike_firstToApply (hr : KeepsNamesApart r) (hs : s.IsBare) (ht : t.IsClean)
    (hrules : ∀ rule ∈ rules, rule.isHygienic = true) :
    Alike (Option.Rel fun p p' => p'.1 = p.1 ∧ p.2.RenamesTo r p'.2) (firstToApply s t rules)
      (firstToApply s (t.rename r) rules) := by
  induction rules with
  | nil => exact .pure .none
  | cons rule rules ih =>
      obtain ⟨hrule, hrules⟩ := List.forall_mem_cons.1 hrules
      refine (Rule.alike_transform hr hs hrule ht).bind fun o o' ho => ?_
      cases ho with
      | none => exact ih hrules
      | some hu => exact .pure (.some ⟨rfl, hu⟩)

/-! ### Actions with a log -/

namespace Run

variable {α α' β β' : Type} {R : α → α' → Prop} {S : β → β' → Prop}

/-- Two logs name the same rules. -/
abbrev SameRules (fired fired' : List Firing) : Prop := fired.map Firing.rule = fired'.map Firing.rule

/-- Two actions with related results, or failures of the same kind, in which the same rules fire. -/
def Alike (R : α → α' → Prop) (x : Run α) (y : Run α') : Prop :=
  ∀ fired fired', SameRules fired fired' →
    Action.Alike (fun p q => R p.1 q.1 ∧ SameRules p.2 q.2) (x.run fired) (y.run fired')

theorem alike_pure {a : α} {b : α'} (h : R a b) : Alike R (pure a) (pure b) :=
  fun _ _ hfired => .pure ⟨h, hfired⟩

theorem alike_bind {x : Run α} {y : Run α'} {f : α → Run β} {g : α' → Run β'} (h : Alike R x y)
    (hfg : ∀ a b, R a b → Alike S (f a) (g b)) : Alike S (x >>= f) (y >>= g) :=
  fun fired fired' hfired => (h fired fired' hfired).bind fun p q hpq => hfg p.1 q.1 hpq.1 p.2 q.2 hpq.2

theorem alike_lift {x : Action α} {y : Action α'} (h : Action.Alike R x y) :
    Alike R (liftM x : Run α) (liftM y : Run α') :=
  fun _ _ hfired => h.bind fun _ _ hab => .pure ⟨hab, hfired⟩

theorem alike_fail (e : Error) :
    Alike R (liftM (Action.fail e : Action α)) (liftM (Action.fail e : Action α')) :=
  alike_lift fun _ => ⟨.error _, rfl⟩

theorem alike_get : Alike SameRules get get := fun _ _ hfired => .pure ⟨hfired, hfired⟩

theorem alike_set {fired fired' : List Firing} (h : SameRules fired fired') :
    Alike (fun _ _ => True) (set fired) (set fired') :=
  fun _ _ _ => .pure ⟨trivial, h⟩

/-- What the first of two actions gives has a property besides. -/
theorem Alike.and_gives {P : α → Prop} {x : Run α} {y : Run α'} (h : Alike R x y) (hx : Gives x P) :
    Alike (fun a b => R a b ∧ P a) x y := by
  intro fired fired' hfired
  exact ((h fired fired' hfired).and_returns (hx fired)).imp fun p q hpq => ⟨⟨hpq.1.1, hpq.2⟩, hpq.1.2⟩

/-- What is done with a tree gives the same before and after its names are changed, with the names
changed. -/
def Renames (r : String → String) (f : Tree → Run Tree) (t : Tree) : Prop :=
  Alike (fun u u' => u' = u.rename r) (f t) (f (t.rename r))

end Run

/-! ### Trees that stay clean -/

/-- All trees that a tree is rewritten to by firings are clean. -/
def StaysClean (s : Scope) (rules : List Rule) (t : Tree) : Prop := ∀ u, Proceeds s rules t u → u.IsClean

namespace StaysClean

theorem isClean (h : StaysClean s rules t) : t.IsClean := h t .refl

theorem of_proceeds (h : StaysClean s rules t) {u : Tree} (hu : Proceeds s rules t u) : StaysClean s rules u :=
  fun v hv => h v (hu.trans hv)

theorem argument {head : Head} {args : List Tree} (h : StaysClean s rules (.node head args)) {a : Tree}
    (ha : a ∈ args) : StaysClean s rules a := by
  intro u hu
  obtain ⟨before, after, rfl⟩ := List.append_of_mem ha
  have hrest : List.Forall₂ (Proceeds s rules) after after := List.forall₂_same.2 fun _ _ => .refl
  exact Tree.leaves_node.1 (h _ (Proceeds.arguments head before (.cons hu hrest))) u (by simp)

end StaysClean

/-- Firing a hygienic rule at a clean tree keeps names leaves of their own. -/
theorem FiresAt.namesAreLeaves (hs : s.IsBare) (hrules : ∀ rule ∈ rules, rule.isHygienic = true)
    {v v' t u : Tree} (h : FiresAt s rules v v' t u) (ht : t.IsClean) : u.NamesAreLeaves := by
  induction h with
  | @head rule before after d d' hsplit _ _ hrun =>
      have hrule := hrules rule (by rw [hsplit]; simp)
      -- That a rule turns trees into alike ones says of its result alone where the names in it stand.
      have hkeeps : KeepsNamesApart id := fun _ _ => Iff.rfl
      obtain ⟨o, ho⟩ := (Rule.alike_transform hkeeps hs hrule ht).returns d _ d' hrun
      cases ho with
      | some hu => exact hu.2
  | argument head before after _ ih =>
      have hargs := Tree.leaves_node.1 ht
      refine Tree.leaves_node.2 fun a ha => ?_
      rcases List.mem_append.1 ha with ha | ha
      · exact fun w hw => (hargs a (by simp [ha]) w hw).1
      · rcases List.mem_cons.1 ha with rfl | ha
        · exact ih (hargs _ (by simp))
        · exact fun w hw => (hargs a (by simp [ha]) w hw).1

/-- A tree in which names are leaves of their own stays clean as long as it is rewritten to trees without
braces. -/
theorem staysClean_of_hasNoBraces (hs : s.IsBare) (hrules : ∀ rule ∈ rules, rule.isHygienic = true)
    (ht : t.NamesAreLeaves) (hbraces : ∀ u, Proceeds s rules t u → u.HasNoBraces) :
    StaysClean s rules t := by
  intro u hu
  have hnames : u.NamesAreLeaves := by
    induction hu with
    | refl => exact ht
    | tail hu hstep ih =>
        obtain ⟨_, _, hfires⟩ := hstep
        exact hfires.namesAreLeaves hs hrules fun v hv => ⟨ih v hv, hbraces _ hu v hv⟩
  exact fun v hv => ⟨hnames v hv, hbraces u hu v hv⟩

/-! ### Simplification -/

/-- What finishes a tree whose parts are settled does so alike. -/
def FinishesAlike (r : String → String) (s : Scope) (rules : List Rule) (finish : Tree → Run Tree) :
    Prop :=
  ∀ t, StaysClean s rules t → (∀ a ∈ t.args, ∀ u ∈ a.subtrees, Rests s rules u) →
    Run.Renames r finish t

section

variable {limit : Int} (hr : KeepsNamesApart r) (hs : s.IsBare)
  (hrules : ∀ rule ∈ rules, rule.isHygienic = true)
include hr hs hrules

/-- The same rule fires before and after names are changed. -/
theorem alike_fire (ht : t.IsClean) :
    Run.Alike (fun o o' => o' = o.map (Tree.rename r)) (fire s rules limit t)
      (fire s rules limit (t.rename r)) := by
  unfold fire
  refine Run.alike_bind (Run.alike_lift (alike_firstToApply hr hs ht hrules)) fun o o' ho => ?_
  cases ho with
  | none => exact Run.alike_pure rfl
  | @some p p' hp =>
      obtain ⟨rule, u⟩ := p
      obtain ⟨rule', u'⟩ := p'
      change rule' = rule ∧ u' = u.rename r ∧ u.NamesAreLeaves at hp
      obtain ⟨rfl, rfl, hu⟩ := hp
      refine Run.alike_bind Run.alike_get fun fired fired' hfired => ?_
      rw [show fired'.length = fired.length by simpa using (congrArg List.length hfired).symm]
      split
      · exact Run.alike_fail _
      · -- The texts in the log differ in their names, but either both can be written or neither.
        have hsource {u : Tree} (hu : u.NamesAreLeaves) :
            Run.Alike (fun _ _ => True) (liftM (Action.ofFault (u.source {})))
              (liftM (Action.ofFault ((u.rename r).source {}))) :=
          Run.alike_lift (Alike.ofFault (Tree.agrees_sourceWith u hu))
        refine Run.alike_bind (hsource fun w hw => (ht w hw).1) fun before before' _ => ?_
        refine Run.alike_bind (hsource hu) fun after after' _ => ?_
        refine Run.alike_bind (Run.alike_set (congrArg (_ :: ·) hfired)) fun _ _ _ => ?_
        exact Run.alike_pure rfl

variable {again : Tree → Run Tree}

theorem alike_finish (hagain : ∀ t, StaysClean s rules t → Run.Renames r again t) :
    FinishesAlike r s rules (settleWith.finish (fire s rules limit) again) := by
  intro t ht hparts
  unfold Run.Renames settleWith.finish
  have hfire : Run.Alike _ (fire s rules limit t) (fire s rules limit (t.rename r)) :=
    alike_fire hr hs hrules ht.isClean
  refine Run.alike_bind (hfire.and_gives (gives_fire limit hparts)) fun o o' ho => ?_
  obtain ⟨rfl, -, hfires⟩ := ho
  cases o with
  | none => exact Run.alike_pure rfl
  | some u => exact hagain u (ht.of_proceeds (.single ⟨t, u, hfires u rfl⟩))

end

mutual

/-- A tree is settled alike before and after its names are changed. -/
theorem alike_settleWith {again : Tree → Run Tree} {limit : Int}
    (hgives : ∀ t, Run.Gives (again t) (Settles s rules t))
    (hfinish : FinishesAlike r s rules (settleWith.finish (fire s rules limit) again)) :
    (t : Tree) → StaysClean s rules t → Run.Renames r (settleWith (fire s rules limit) again) t
  | .leaf v, ht => by
      unfold Run.Renames
      rw [Tree.rename, settleWith, settleWith]
      exact hfinish _ ht fun a ha => by cases ha
  | .node h args, ht => by
      have hargs := alike_settleAllWith hgives hfinish args fun a ha => ht.argument ha
      unfold Run.Renames
      rw [Tree.rename, settleWith, settleWith]
      refine Run.alike_bind (hargs.and_gives (gives_settleAllWith hgives args)) fun us us' hus => ?_
      obtain ⟨rfl, hproceeds, hrests⟩ := hus
      exact hfinish _ (ht.of_proceeds (Proceeds.arguments h [] hproceeds)) hrests

theorem alike_settleAllWith {again : Tree → Run Tree} {limit : Int}
    (hgives : ∀ t, Run.Gives (again t) (Settles s rules t))
    (hfinish : FinishesAlike r s rules (settleWith.finish (fire s rules limit) again)) :
    (ts : List Tree) → (∀ t ∈ ts, StaysClean s rules t) →
      Run.Alike (fun us us' => us' = Tree.renameAll r us) (settleAllWith (fire s rules limit) again ts)
        (settleAllWith (fire s rules limit) again (Tree.renameAll r ts))
  | [], _ => Run.alike_pure rfl
  | t :: ts, hts => by
      obtain ⟨ht, hts⟩ := List.forall_mem_cons.1 hts
      rw [Tree.renameAll, settleAllWith, settleAllWith]
      refine Run.alike_bind (alike_settleWith hgives hfinish t ht) fun u u' hu => ?_
      refine Run.alike_bind (alike_settleAllWith hgives hfinish ts hts) fun us us' hus => ?_
      rw [hu, hus]
      exact Run.alike_pure rfl

end

theorem alike_settle (hr : KeepsNamesApart r) (hs : s.IsBare)
    (hrules : ∀ rule ∈ rules, rule.isHygienic = true) (limit : Int) :
    (fuel : Nat) → (t : Tree) → StaysClean s rules t →
      Run.Renames r (settle s rules limit fuel) t
  | 0, t, ht => by
      unfold Run.Renames settle
      exact alike_settleWith (fun _ => Run.gives_fail _ _)
        (alike_finish hr hs hrules fun _ _ => Run.alike_fail _) t ht
  | fuel + 1, t, ht => by
      unfold Run.Renames settle
      exact alike_settleWith (gives_settle limit fuel)
        (alike_finish hr hs hrules (alike_settle hr hs hrules limit fuel)) t ht

end Simplify

/-! ### Where nothing is evaluated -/

namespace Tree

/-- There is no `eval` in a tree, and no text in it has braces. -/
structure IsStill (t : Tree) : Prop where
  evalArguments : t.evalArguments = []
  hasNoBraces : t.HasNoBraces

instance (t : Tree) : Decidable t.IsStill :=
  decidable_of_iff (t.evalArguments.isEmpty = true ∧ t.HasNoBraces)
    ⟨fun ⟨hnil, hbraces⟩ => ⟨List.isEmpty_iff.1 hnil, hbraces⟩, fun ⟨hnil, hbraces⟩ =>
      ⟨List.isEmpty_iff.2 hnil, hbraces⟩⟩

theorem evalArguments_node_eq_nil {h : Head} {args : List Tree} :
    (node h args).evalArguments = [] ↔
      (∀ t, h = .call "eval" → args ≠ [t]) ∧ ∀ a ∈ args, a.evalArguments = [] := by
  have hall : ∀ ts : List Tree, evalArgumentsOf ts = [] ↔ ∀ a ∈ ts, a.evalArguments = [] := by
    intro ts
    induction ts with
    | nil => simp [evalArgumentsOf]
    | cons t ts ih => simp [evalArgumentsOf, ih]
  constructor
  · intro hnil
    have hne : ∀ t, h = .call "eval" → args ≠ [t] := by
      rintro t rfl rfl
      cases hnil
    rw [evalArguments_node hne] at hnil
    exact ⟨hne, (hall args).1 hnil⟩
  · rintro ⟨hne, hargs⟩
    rw [evalArguments_node hne]
    exact (hall args).2 hargs

theorem isStill_node {h : Head} {args : List Tree} :
    (node h args).IsStill ↔ (∀ t, h = .call "eval" → args ≠ [t]) ∧ ∀ a ∈ args, a.IsStill := by
  constructor
  · rintro ⟨hnil, hbraces⟩
    obtain ⟨hne, hargs⟩ := evalArguments_node_eq_nil.1 hnil
    exact ⟨hne, fun a ha => ⟨hargs a ha, leaves_node.1 hbraces a ha⟩⟩
  · rintro ⟨hne, hargs⟩
    exact ⟨evalArguments_node_eq_nil.2 ⟨hne, fun a ha => (hargs a ha).evalArguments⟩,
      leaves_node.2 fun a ha => (hargs a ha).hasNoBraces⟩

theorem IsStill.of_mem_subtrees {t u : Tree} (ht : t.IsStill) (hu : u ∈ t.subtrees) : u.IsStill := by
  induction t using ind with
  | leaf v =>
      cases List.mem_singleton.1 hu
      exact ht
  | node h args ih =>
      rcases List.mem_cons.1 hu with rfl | hu
      · exact ht
      · obtain ⟨a, ha, hu⟩ := mem_subtreesOf.1 hu
        exact ih a ha ((isStill_node.1 ht).2 a ha) hu

theorem evalParts_of_evalArguments {s : Scope} (t : Tree) (ht : t.evalArguments = []) :
    t.evalParts s = pure t := by
  induction t using ind with
  | leaf v => rfl
  | node h args ih =>
      obtain ⟨hne, hargs⟩ := evalArguments_node_eq_nil.1 ht
      have hall : evalPartsOf s args = pure args := by
        clear hne ht
        induction args with
        | nil => rfl
        | cons a args ih' =>
            obtain ⟨ha, hargs⟩ := List.forall_mem_cons.1 hargs
            rw [evalPartsOf, ih a List.mem_cons_self ha,
              ih' (fun b hb => ih b (List.mem_cons_of_mem a hb)) hargs]
            rfl
      rw [evalParts_node hne, hall]
      rfl

theorem isStill_fill {t u : Tree} {found : Captures} (ht : t.IsStill) (hu : u.IsStill)
    (hfound : found.ArePartsOf u) : (t.fill found).IsStill := by
  refine ⟨List.eq_nil_iff_forall_not_mem.2 fun w hw => ?_, fun v hv => ?_⟩
  · rcases mem_evalArguments_fill t hw with ⟨w, hw, -⟩ | ⟨key, w, hw, hmem⟩
    · rw [ht.evalArguments] at hw
      cases hw
    · rw [(hu.of_mem_subtrees (hfound key w hw)).evalArguments] at hmem
      cases hmem
  · rcases mem_subtrees_fill t hv with ⟨w, hw, heq⟩ | ⟨key, w, hw, hv⟩
    · cases w with
      | node => cases heq
      | leaf a =>
          have ha := ht.hasNoBraces a hw
          cases a with
          | name s hints =>
              rw [fill] at heq
              cases hfind : found.find? (Text.lower s) with
              | none =>
                  rw [hfind] at heq
                  cases heq
                  rfl
              | some b =>
                  rw [hfind] at heq
                  refine hu.hasNoBraces v ?_
                  rw [show leaf v = b from heq]
                  exact hfound _ b hfind
          | _ =>
              cases heq
              exact ha
    · exact (hu.of_mem_subtrees (hfound key w hw)).hasNoBraces v hv

end Tree

namespace Simplify

variable {s : Scope} {rules : List Rule}

/-- What fires has nothing to evaluate in its result. -/
theorem FiresAt.isStill (hrules : ∀ rule ∈ rules, rule.pattern.isPlain = true ∧ rule.result.IsStill)
    {v v' t u : Tree} (h : FiresAt s rules v v' t u) (ht : t.IsStill) : u.IsStill := by
  induction h with
  | @head rule before after d d' hsplit _ _ hrun =>
      obtain ⟨hpattern, hresult⟩ := hrules rule (by rw [hsplit]; simp)
      have hreturns : (rule.transform s v).Returns fun o => ∀ u, o = some u → u.IsStill := by
        unfold Rule.transform
        cases hfind : rule.pattern.find v false with
        | none => exact Action.returns_pure nofun
        | some found =>
            have hfill := Tree.isStill_fill hresult ht (Pattern.covers_of_find hpattern hfind).parts
            refine Action.returns_bind (Action.returns_true _) fun met _ => ?_
            split
            · rw [Tree.evalParts_of_evalArguments _ hfill.evalArguments]
              refine Action.returns_bind (Action.returns_attempt (Action.returns_pure hfill)) fun o ho => ?_
              split
              · refine Action.returns_pure ?_
                rintro _ ⟨⟩
                exact ho _ rfl
              · exact Action.returns_pure nofun
            · exact Action.returns_pure nofun
      exact hreturns d _ d' hrun v' rfl
  | @argument head before after t u _ ih =>
      obtain ⟨hne, hargs⟩ := Tree.isStill_node.1 ht
      have hu := ih (hargs t (by simp))
      refine Tree.isStill_node.2 ⟨fun w hw heq => ?_, fun a ha => ?_⟩
      · -- The node has one argument only if it had one before.
        cases before with
        | nil =>
            cases after with
            | nil => exact hne t hw rfl
            | cons => cases heq
        | cons => simp at heq
      · rcases List.mem_append.1 ha with ha | ha
        · exact hargs a (by simp [ha])
        · rcases List.mem_cons.1 ha with rfl | ha
          · exact hu
          · exact hargs a (by simp [ha])

/-- Where nothing is evaluated, no braces arise. -/
theorem Proceeds.isStill (hrules : ∀ rule ∈ rules, rule.pattern.isPlain = true ∧ rule.result.IsStill)
    {t u : Tree} (h : Proceeds s rules t u) (ht : t.IsStill) : u.IsStill := by
  induction h with
  | refl => exact ht
  | tail _ hstep ih =>
      obtain ⟨_, _, hfires⟩ := hstep
      exact hfires.isStill hrules ih

end Simplify

/-! ### The built-in rules -/

/-- A rule of a built-in ruleset. -/
def Rule.IsBuiltIn (rule : Rule) : Prop := ∃ e ∈ Library.rulesets.entries, rule ∈ e.2.rules

theorem Rule.IsBuiltIn.isHygienic {rule : Rule} (h : rule.IsBuiltIn) : rule.isHygienic = true := by
  have hall : (Library.treeRulesets.entries.all fun e => e.2.rules.all Rule.isHygienic) = true := by
    decide +kernel
  obtain ⟨e, he, hrule⟩ := h
  rw [Library.rulesets_eq] at he
  exact List.all_eq_true.1 (List.all_eq_true.1 hall e he) rule hrule

theorem Rule.isBuiltIn_of_mem {name : String} {rule : Rule}
    (h : rule ∈ ((Library.rulesets.find? name).getD ⟨[], .empty⟩).rules) : rule.IsBuiltIn := by
  cases hfind : Library.rulesets.find? name with
  | none =>
      rw [hfind] at h
      cases h
  | some R =>
      rw [hfind] at h
      exact ⟨(name, R), Table.mem_of_find?_eq_some hfind, h⟩

namespace Ruleset

/-- Simplifying a tree gives the same before and after its names are changed, with the names changed, or
fails with an error of the same kind. -/
def SimplifiesAlike (R : Ruleset) (s : Scope) (r : String → String) (t : Tree) : Prop :=
  Alike (fun u u' => u' = u.rename r) (R.simplify s t) (R.simplify s (t.rename r))

/-- The same rules fire when a tree is simplified before and after its names are changed, and the result has
its names changed. -/
theorem alike_simplifyTracing {R : Ruleset} (hR : ∀ rule ∈ R.rules, rule.IsBuiltIn) {s : Scope}
    (hs : s.EachSignature fun _ f => ∀ parameters result t, f.body ≠ .custom parameters result t)
    (hr : KeepsNamesApart r) {t : Tree} (ht : t.NamesAreLeaves)
    (hbraces : ∀ u, Simplify.Proceeds s.withoutVariables R.rules t u → u.HasNoBraces) (limit : Int) :
    Alike (fun p q => q.1 = p.1.rename r ∧ Simplify.Run.SameRules p.2 q.2) (R.simplifyTracing s limit t)
      (R.simplifyTracing s limit (t.rename r)) := by
  have hs := Scope.IsBare.withoutVariables hs
  have hrules := fun rule hrule => (hR rule hrule).isHygienic
  have hclean := Simplify.staysClean_of_hasNoBraces hs hrules ht hbraces
  unfold simplifyTracing
  refine (Simplify.alike_settle hr hs hrules limit limit.toNat t hclean [] [] rfl).bind fun p q hpq => ?_
  refine .pure ⟨hpq.1, ?_⟩
  show List.map _ (List.reverse _) = List.map _ (List.reverse _)
  rw [List.map_reverse, List.map_reverse, hpq.2]

/-- **Hygiene.** The names in a tree may be called like the names under which rules capture: simplifying the
tree with its names changed gives what simplifying the tree gives, with the names changed, if names are
leaves of their own and no text with braces arises. -/
theorem simplifiesAlike_of_hasNoBraces {R : Ruleset} (hR : ∀ rule ∈ R.rules, rule.IsBuiltIn) {s : Scope}
    (hs : s.EachSignature fun _ f => ∀ parameters result t, f.body ≠ .custom parameters result t)
    (hr : KeepsNamesApart r) {t : Tree} (ht : t.NamesAreLeaves)
    (hbraces : ∀ u, Simplify.Proceeds s.withoutVariables R.rules t u → u.HasNoBraces) :
    R.SimplifiesAlike s r t :=
  (alike_simplifyTracing hR hs hr ht hbraces Simplify.usualLimit).bind fun _ _ hpq => .pure hpq.1

/-- The built-in ruleset for sums with zero. -/
def zeroTerm : Ruleset := (Library.rulesets.find? "zeroTerm").getD ⟨[], .empty⟩

theorem isBuiltIn_zeroTerm : ∀ rule ∈ zeroTerm.rules, rule.IsBuiltIn :=
  fun _ => Rule.isBuiltIn_of_mem

/-- `x` and `y` change places. -/
def swapped (s : String) : String :=
  if Text.lower s = "x" then "y" else if Text.lower s = "y" then "x" else s

theorem lower_swapped (s : String) :
    Text.lower (swapped s) =
      if Text.lower s = "x" then "y" else if Text.lower s = "y" then "x" else Text.lower s := by
  unfold swapped
  split_ifs
  · decide +kernel
  · decide +kernel
  · rfl

theorem keepsNamesApart_swapped : KeepsNamesApart swapped := by
  intro a b
  rw [lower_swapped, lower_swapped]
  generalize Text.lower a = a
  generalize Text.lower b = b
  by_cases ha : a = "x" <;> by_cases hb : b = "x" <;> by_cases ha' : a = "y" <;> by_cases hb' : b = "y" <;>
    simp_all [eq_comm]

/-- `x + 0` -/
def nameAndZero : Tree := .binary "+" (.leaf (.name "x" {})) (.leaf (.nat 0))

theorem simplifiesAlike_nameAndZero :
    nameAndZero.NamesAreLeaves ∧
      (∀ u, Simplify.Proceeds Library.scope.withoutVariables zeroTerm.rules nameAndZero u →
        u.HasNoBraces) ∧
      zeroTerm.SimplifiesAlike Library.scope swapped nameAndZero := by
  have hstill : (zeroTerm.rules.all fun rule => rule.pattern.isPlain && decide rule.result.IsStill) = true := by
    unfold zeroTerm
    rw [Library.rulesets_eq]
    decide +kernel
  have hleaves : nameAndZero.NamesAreLeaves := by decide +kernel
  have hbraces (u : Tree)
      (hu : Simplify.Proceeds Library.scope.withoutVariables zeroTerm.rules nameAndZero u) : u.HasNoBraces := by
    refine (hu.isStill (fun rule hrule => ?_) (by decide +kernel)).hasNoBraces
    obtain ⟨hpattern, hresult⟩ := Bool.and_eq_true_iff.1 (List.all_eq_true.1 hstill rule hrule)
    exact ⟨hpattern, of_decide_eq_true hresult⟩
  exact ⟨hleaves, hbraces, simplifiesAlike_of_hasNoBraces isBuiltIn_zeroTerm
    Scope.holdsBuiltIns_scope.body_ne_custom keepsNamesApart_swapped hleaves hbraces⟩

/-! ### Names in texts -/

/-- Whether a tree simplifies to another text when its names are changed. -/
def differsAt (R : Ruleset) (r : String → String) (t : Tree) : Bool :=
  match runFrom (R.simplify Library.scope t) .default,
    runFrom (R.simplify Library.scope (t.rename r)) .default with
  | (.ok u, _), (.ok u', _) => ((u.rename r).source {}).toOption != (u'.source {}).toOption
  | _, _ => false

theorem not_simplifiesAlike_of_differsAt {R : Ruleset} {t : Tree} (h : R.differsAt r t = true) :
    ¬R.SimplifiesAlike Library.scope r t := by
  intro halike
  unfold differsAt at h
  have hruns := (halike .default).1
  unfold Action.outcome at hruns
  split at h
  · rename_i hu hu'
    rw [hu, hu'] at hruns
    cases hruns with
    | ok heq =>
        rw [heq] at h
        simp at h
  · cases h

/-- `eval(map(eval(latex("x")) + 0, x, [1])) + 0` -/
def filledOnTheWay : Tree :=
  let eval (t : Tree) := Tree.node (.call "eval") [t]
  let latex := eval (.node (.call "latex") [.leaf (.plainText "x")])
  .binary "+"
    (eval (.node (.call "map")
      [.binary "+" latex (.leaf (.nat 0)), .leaf (.name "x" {}), .node .list [.leaf (.nat 1)]]))
    (.leaf (.nat 0))

/-- `eval("" + [x]) + 0`, where the list is a value -/
def spelledOut : Tree :=
  .binary "+"
    (.node (.call "eval") [.binary "+" (.leaf (.plainText "")) (.leaf (.list [.name "x" {}]))])
    (.leaf (.nat 0))

/-- Simplification does not commute with changes of names where names are read from a text or spelled out in
one: on the way, the `x` in the text of a formula is taken for a slot, and a list that is a value shows what its
names are called when it is added to a text. -/
theorem not_simplifiesAlike_zeroTerm :
    (∀ rule ∈ zeroTerm.rules, rule.IsBuiltIn) ∧ KeepsNamesApart swapped ∧
      ∀ t ∈ [filledOnTheWay, spelledOut], t.HasNoBraces ∧
        ¬zeroTerm.SimplifiesAlike Library.scope swapped t := by
  refine ⟨isBuiltIn_zeroTerm, keepsNamesApart_swapped, fun t ht => ?_⟩
  have hall : ([filledOnTheWay, spelledOut].all fun t =>
      zeroTerm.differsAt swapped t && decide t.HasNoBraces) = true := by
    unfold differsAt simplify simplifyTracing Scope.withoutVariables zeroTerm
    rw [Library.child_scope, Library.scope_eq, Library.rulesets_eq]
    decide +kernel
  obtain ⟨hdiffers, hbraces⟩ := Bool.and_eq_true_iff.1 (List.all_eq_true.1 hall t ht)
  exact ⟨of_decide_eq_true hbraces, not_simplifiesAlike_of_differsAt hdiffers⟩

end Ruleset

end MathExpr
