import MathExpr.Proofs.Orderly
import MathExpr.Proofs.SubstitutionLemma

/-!
# Evaluation in scopes that agree

A tree that avoids the disputed names evaluates alike in two scopes that agree on all
others (`Scope.Agree.eval_eq`), to the same value or with the same failure. Under the
constructs that bind names, the scopes agree on these too from where they are bound
(`Construct.evalMap_congr`, `Construct.related_define`).

A scope agrees with the one in which all random choices are replaced. So an orderly tree
draws no random numbers (`Scope.Extends.drawsNothing_eval`).
-/

namespace MathExpr

open Scope (Agree)

/-! ### Two runs -/

namespace Action

variable {α β γ : Type}

/-- Two actions fail alike, or have results that are related, and draw the same numbers. -/
def Related (R : α → β → Prop) (x : Action α) (y : Action β) : Prop :=
  ∀ d, (∃ e d', runFrom x d = (.error e, d') ∧ runFrom y d = (.error e, d')) ∨
    ∃ a b d', runFrom x d = (.ok a, d') ∧ runFrom y d = (.ok b, d') ∧ R a b

theorem related_pure {R : α → β → Prop} {a : α} {b : β} (h : R a b) :
    Related R (pure a) (pure b) :=
  fun d => .inr ⟨a, b, d, rfl, rfl, h⟩

/-- What goes on alike for related results is the same. -/
theorem Related.bind_eq {R : α → β → Prop} {x : Action α} {y : Action β} {f : α → Action γ}
    {g : β → Action γ} (h : Related R x y) (hfg : ∀ a b, R a b → f a = g b) : x >>= f = y >>= g := by
  refine funext fun d => ?_
  change runFrom (x >>= f) d = runFrom (y >>= g) d
  rw [runFrom_bind, runFrom_bind]
  rcases h d with ⟨e, d', hx, hy⟩ | ⟨a, b, d', hx, hy, hab⟩
  · rw [hx, hy]
  · rw [hx, hy]
    exact congrArg (fun z => runFrom z d') (hfg a b hab)

theorem related_bind {R : β → γ → Prop} (x : Action α) {f : α → Action β} {g : α → Action γ}
    (h : ∀ a, Related R (f a) (g a)) : Related R (x >>= f) (x >>= g) := by
  intro d
  rw [runFrom_bind, runFrom_bind]
  rcases hx : runFrom x d with ⟨r, d'⟩
  cases r with
  | ok a => exact h a d'
  | error e => exact .inl ⟨e, d', rfl, rfl⟩

theorem mapM_congr {f g : α → Action β} {items : List α} (h : ∀ a ∈ items, f a = g a) :
    items.mapM f = items.mapM g := by
  induction items with
  | nil => rfl
  | cons a rest ih =>
      rw [List.mapM_cons, List.mapM_cons, h a List.mem_cons_self,
        ih fun b hb => h b (List.mem_cons_of_mem a hb)]

theorem ofOutcome_ok_bind (a : α) (f : α → Action β) : ofOutcome (.ok a) >>= f = f a := rfl

end Action

/-! ### Arguments of constructs -/

theorem Tree.eq_of_elements? {t : Tree} {items : List Tree} (h : t.elements? = some items) :
    t = .node .list items := by
  cases t with
  | leaf v => cases h
  | node head args =>
      cases head with
      | list =>
          cases h
          rfl
      | _ => cases h

/-- An argument evaluates alike in scopes that agree, if it avoids what is disputed between them, and so
do the elements of one that is a list literal. -/
structure Suspended.Agrees (s : Scope) (defined : List String) (a : Suspended) : Prop where
  value : ∀ {around disputed s₁ s₂}, Agree s defined around disputed s₁ s₂ →
    a.tree.Avoids s defined around disputed → a.value s₁ = a.value s₂
  parts : ∀ {items : List Tree}, a.tree = .node .list items →
    ∀ (i : Nat) (part : Scope → Action Value), a.parts[i]? = some part →
      ∃ t, items[i]? = some t ∧ ∀ {around disputed s₁ s₂}, Agree s defined around disputed s₁ s₂ →
      t.Avoids s defined around disputed → part s₁ = part s₂

namespace Construct

variable {s s₁ s₂ : Scope} {defined around : List String} {disputed : String → Prop}
  {a b c : Suspended} {head : Head} {rest : List Tree}

theorem evalConditional_congr (ha : a.value s₁ = a.value s₂) (hb : b.value s₁ = b.value s₂)
    (hc : c.value s₁ = c.value s₂) : evalConditional s₁ a b c = evalConditional s₂ a b c := by
  unfold evalConditional
  rw [ha, hb, hc]

theorem evalCases_congr :
    (args : List Suspended) → (∀ a ∈ args, a.value s₁ = a.value s₂) →
      evalCases s₁ args = evalCases s₂ args
  | [], _ => rfl
  | [a], h => h a List.mem_cons_self
  | a :: b :: rest, h => by
      have hrest := evalCases_congr rest
        fun c hc => h c (List.mem_cons_of_mem a (List.mem_cons_of_mem b hc))
      unfold evalCases
      rw [h a List.mem_cons_self, h b (List.mem_cons_of_mem a List.mem_cons_self), hrest]

theorem evalRepetition_congr (ha : a.value s₁ = a.value s₂) (hb : b.value s₁ = b.value s₂) :
    evalRepetition s₁ a b = evalRepetition s₂ a b := by
  unfold evalRepetition
  rw [ha, hb]

/-! #### Loops -/

/-- What a tree gives to a loop is its own name, or the names among its elements. -/
theorem loopNames?_of_name?_eq_none {t : Tree} {names : LoopNames} (h : loopNames? t = some names)
    (hname : t.name? = none) :
    ∃ ns, names = .several ns ∧ ∀ n ∈ ns, Text.lower n ∈ t.boundKeys := by
  have hkey : t.key? = none := by
    rw [Tree.key?, hname]
    rfl
  unfold loopNames? at h
  unfold Tree.boundKeys
  rw [hname] at h
  rw [hkey]
  cases helements : t.elements? with
  | none =>
      rw [helements] at h
      cases h
  | some items =>
      rw [helements] at h
      obtain ⟨ns, hns, rfl⟩ := Option.map_eq_some_iff.1 h
      exact ⟨ns, rfl, fun n hn => mem_of_mapM_name? hns hn⟩

/-- A loop evaluates its item in scopes that agree again. -/
theorem evalMap_congr (h : Agree s defined around disputed s₁ s₂) (ha : a.Agrees s defined)
    (ht : (Tree.node head (a.tree :: b.tree :: rest)).Avoids s defined around disputed)
    (hkey : head.key? = some "map") (hc : c.value s₁ = c.value s₂) :
    evalMap s₁ a b c = evalMap s₂ a b c := by
  unfold evalMap
  rw [hc]
  refine bind_congr fun v => bind_congr fun items => ?_
  cases hnames : loopNames? b.tree with
  | none => rfl
  | some names =>
      have hinner := h.child.within b.tree.boundKeys
      refine congrArg (fun vs => vs >>= fun vs => pure (Value.list vs)) (Action.mapM_congr fun v _ => ?_)
      cases hname : b.tree.name? with
      | some name =>
          have hsingle : names = .single name := by
            rw [loopNames?, hname] at hnames
            exact (Option.some.inj hnames).symm
          have hmem : Text.lower name ∈ b.tree.boundKeys ++ around := by
            rw [Tree.boundKeys, Tree.key?, hname]
            exact List.mem_cons_self
          rw [hsingle]
          exact ha.value (hinner.settle hmem v) (ht.item_of_name hkey hname)
      | none =>
          obtain ⟨ns, rfl, hmem⟩ := loopNames?_of_name?_eq_none hnames hname
          refine ha.value (hinner.bindAll fun e he => ?_)
            (ht.item_of_list hkey hname h.defined_of_disputed)
          exact List.mem_append_left _ (hmem e.1 (List.of_mem_zip he).1)

/-! #### Questions about kinds -/

/-- What is decided about the kind of a tree without its value is the same. -/
theorem kindOfUnbound_congr (h : Agree s defined around disputed s₁ s₂)
    {t : Tree} (ht : t.Avoids s defined around disputed) (kind : String) :
    kindOfUnbound s₁ kind t = kindOfUnbound s₂ kind t := by
  have hname : ∀ n, t.name? = some n → s₁.binds n = s₂.binds n := by
    intro n hn
    refine h.binds_eq (ht.not_disputed _ ?_)
    cases t with
    | node => cases hn
    | leaf v =>
        cases v with
        | name =>
            cases hn
            exact .name List.not_mem_nil
        | _ => cases hn
  have hall : ∀ names, FreeNames.ofTree s.tree [] t = .ok names →
      names.all s₁.binds = names.all s₂.binds := by
    intro names hnames
    have hbinds : ∀ n ∈ names, s₁.binds n = s₂.binds n := by
      intro n hn
      refine h.binds_eq ?_
      rw [FreeNames.areKeys_ofTree? s.tree [] (some t) names hnames n hn]
      exact ht.not_disputed n ((FreeNames.mem_iff_freeIn s.readsShorter_tree hnames).1 hn)
    rw [Bool.eq_iff_iff, List.all_eq_true, List.all_eq_true]
    exact forall₂_congr fun n hn => by rw [hbinds n hn]
  unfold kindOfUnbound
  rw [FreeNames.ofTree_congr h.left ht.isOrderly, FreeNames.ofTree_congr h.right ht.isOrderly]
  have hdecide : (do
      let free ← FreeNames.ofTree s.tree [] t
      return if free.all s₁.binds then none else some (t.kind == kind) : Outcome (Option Bool)) = do
      let free ← FreeNames.ofTree s.tree [] t
      return if free.all s₂.binds then none else some (t.kind == kind) := by
    cases hfree : FreeNames.ofTree s.tree [] t with
    | error e => rfl
    | ok names => simp only [bind, Except.bind, hall names hfree]
  cases hn : t.name? with
  | none => exact hdecide
  | some n =>
      dsimp only
      rw [hname n hn, hdecide]

theorem evalIsa_congr (h : Agree s defined around disputed s₁ s₂)
    (ha : a.Agrees s defined) (hsubject : a.tree.Avoids s defined around disputed)
    (hb : b.value s₁ = b.value s₂) : evalIsa s₁ a b = evalIsa s₂ a b := by
  unfold evalIsa
  rw [hb, ha.value h hsubject]
  refine bind_congr fun v => ?_
  cases v with
  | text kind safe latex =>
      dsimp only
      rw [kindOfUnbound_congr h hsubject]
  | _ => rfl

/-! #### Attempts -/

/-- Names are defined alike, one after the other, and are not disputed any more. -/
theorem related_define (h : Agree s defined around disputed s₁ s₂) {keys : List String}
    (hkeys : ∀ k ∈ keys, Text.lower k = k ∧ k ∈ around) {parts : List (Scope → Action Value)}
    (hlength : keys.length = parts.length)
    (hparts : ∀ i part, parts[i]? = some part → ∀ fewer : String → Prop,
      (∀ n, fewer n → disputed n ∧ n ∉ keys.take i) →
        ∀ s₁ s₂, Agree s defined around fewer s₁ s₂ → part s₁ = part s₂) :
    Action.Related (Agree s defined around fun n => disputed n ∧ n ∉ keys)
      (define s₁ (keys.zip parts)) (define s₂ (keys.zip parts)) := by
  induction keys generalizing disputed parts s₁ s₂ with
  | nil =>
      refine Action.related_pure (h.of_imp (fun n hn => ⟨hn, List.not_mem_nil⟩) fun n hn => ?_)
      exact h.defined_of_disputed n hn.1
  | cons k keys ih =>
      cases parts with
      | nil => cases hlength
      | cons part parts =>
          obtain ⟨hk, haround⟩ := hkeys k List.mem_cons_self
          rw [List.zip_cons_cons, define, define,
            hparts 0 part rfl disputed (fun n hn => ⟨hn, List.not_mem_nil⟩) s₁ s₂ h]
          refine Action.related_bind _ fun v => ?_
          rw [← hk] at haround
          have hnext := ih (h.settle haround v) (fun k' hk' => hkeys k' (List.mem_cons_of_mem k hk'))
            (Nat.succ.inj hlength) fun i part hi fewer hfewer => hparts (i + 1) part hi fewer
              fun n hn => by
                obtain ⟨⟨hdisputed, hne⟩, hlate⟩ := hfewer n hn
                rw [hk] at hne
                exact ⟨hdisputed, fun hn => (List.mem_cons.1 hn).elim hne hlate⟩
          have hsettled : (fun n => (disputed n ∧ n ≠ Text.lower k) ∧ n ∉ keys) =
              fun n => disputed n ∧ n ∉ k :: keys := by
            funext n
            rw [hk, List.mem_cons, not_or, and_assoc]
          rwa [hsettled] at hnext

theorem meets_congr {parts : List (Scope → Action Value)} (h : ∀ part ∈ parts, part s₁ = part s₂) :
    meets s₁ parts = meets s₂ parts := by
  induction parts with
  | nil => rfl
  | cons part parts ih =>
      rw [meets, meets, h part List.mem_cons_self, ih fun p hp => h p (List.mem_cons_of_mem part hp)]

theorem evalSatisfy_congr (h : Agree s defined around disputed s₁ s₂) (hb : b.Agrees s defined)
    (hc : c.Agrees s defined)
    (ht : (Tree.node head (a.tree :: b.tree :: c.tree :: rest)).Avoids s defined around disputed)
    (hkey : head.key? = some "satisfy") {count₁ count₂ : Action Int} (hcount : count₁ = count₂) :
    evalSatisfy s₁ a b c count₁ = evalSatisfy s₂ a b c count₂ := by
  subst hcount
  have hkeys : ∀ k ∈ a.tree.boundKeys, Text.lower k = k ∧ k ∈ a.tree.boundKeys ++ around :=
    fun k hk => ⟨Tree.lower_of_mem_boundKeys hk, List.mem_append_left _ hk⟩
  unfold evalSatisfy
  simp only [List.find?_cons]
  cases a.tree.elements?.isNone with
  | true => rfl
  | false =>
  cases hbitems : b.tree.elements? with
  | none => rfl
  | some ds =>
  cases hcitems : c.tree.elements? with
  | none => rfl
  | some rs =>
      have hds := Tree.eq_of_elements? hbitems
      have hrs := Tree.eq_of_elements? hcitems
      rw [hds, hrs] at ht
      show attemptAll s₁ a.tree.boundKeys b.parts c.parts count₁ =
        attemptAll s₂ a.tree.boundKeys b.parts c.parts count₁
      unfold attemptAll
      split
      · rfl
      · rename_i hlength
        have honce : attemptOnce s₁ a.tree.boundKeys b.parts c.parts =
            attemptOnce s₂ a.tree.boundKeys b.parts c.parts := by
          unfold attemptOnce
          refine (related_define (h.child.within a.tree.boundKeys) hkeys (not_not.1 hlength)
            fun i part hi fewer hfewer i₁ i₂ hagree => ?_).bind_eq fun i₁ i₂ hagree => ?_
          · obtain ⟨t, hitem, hvalue⟩ := hb.parts hds i part hi
            exact hvalue hagree (ht.definition hkey h.defined_of_disputed hitem hfewer)
          · have hvalues : ∀ k ∈ a.tree.boundKeys, i₁.value? k = i₂.value? k := fun k hk =>
              hagree.value k fun hn => hn.2 (by rwa [(hkeys k hk).1])
            have hmeets : meets i₁ c.parts = meets i₂ c.parts := by
              refine meets_congr fun part hpart => ?_
              obtain ⟨i, hi⟩ := List.getElem?_of_mem hpart
              obtain ⟨t, hitem, hvalue⟩ := hc.parts hrs i part hi
              exact hvalue hagree (ht.requirement hkey (List.mem_of_getElem? hitem))
            rw [hmeets, List.filterMap_congr hvalues]
        rw [honce]

/-! #### Any construct -/

variable {deeper : Evaluator} {args : List Tree}

theorem eval_congr (h : Agree s defined around disputed s₁ s₂)
    (ht : (Tree.node head args).Avoids s defined around disputed) {c : Construct}
    (hkey : head.key? = some c.name)
    (hargs : ∀ t ∈ args, (Evaluate.suspended deeper t).Agrees s defined) :
    c.eval s₁ (args.map (Evaluate.suspended deeper)) =
      c.eval s₂ (args.map (Evaluate.suspended deeper)) := by
  have hmem {key : String} (hkey : head.key? = some key) (hmap : key ≠ "map")
      (hsatisfy : key ≠ "satisfy") : ∀ t ∈ args, t.Avoids s defined around disputed :=
    fun t => ht.of_mem (by rwa [hkey, Ne, Option.some_inj]) (by rwa [hkey, Ne, Option.some_inj])
  have hvalue {t : Tree} (ht' : t ∈ args) (havoids : t.Avoids s defined around disputed) :
      (Evaluate.suspended deeper t).value s₁ = (Evaluate.suspended deeper t).value s₂ :=
    (hargs t ht').value h havoids
  cases c with
  | conditional =>
      have hmem := hmem hkey (by decide) (by decide)
      rcases args with _ | ⟨t, _ | ⟨u, _ | ⟨w, _ | ⟨x, rest⟩⟩⟩⟩
      case cons.cons.cons.nil =>
        exact evalConditional_congr (hvalue (by simp) (hmem t (by simp)))
          (hvalue (by simp) (hmem u (by simp))) (hvalue (by simp) (hmem w (by simp)))
      all_goals rfl
  | cases =>
      refine evalCases_congr _ fun a ha => ?_
      obtain ⟨t, ht', rfl⟩ := List.mem_map.1 ha
      exact hvalue ht' (hmem hkey (by decide) (by decide) t ht')
  | repetition =>
      have hmem := hmem hkey (by decide) (by decide)
      rcases args with _ | ⟨t, _ | ⟨u, _ | ⟨w, rest⟩⟩⟩
      case cons.cons.nil =>
        exact evalRepetition_congr (hvalue (by simp) (hmem t (by simp)))
          (hvalue (by simp) (hmem u (by simp)))
      all_goals rfl
  | isa =>
      have hmem := hmem hkey (by decide) (by decide)
      rcases args with _ | ⟨t, _ | ⟨u, _ | ⟨w, rest⟩⟩⟩
      case cons.cons.nil =>
        exact evalIsa_congr h (hargs t (by simp)) (hmem t (by simp))
          (hvalue (by simp) (hmem u (by simp)))
      all_goals rfl
  | map =>
      rcases args with _ | ⟨t, _ | ⟨u, _ | ⟨w, _ | ⟨x, rest⟩⟩⟩⟩
      case cons.cons.cons.nil =>
        have hbinding := congrArg Prod.snd (Tree.Avoids.binding_map t u [w] hkey)
        exact evalMap_congr h (hargs t (by simp)) ht hkey
          (hvalue (by simp) (ht.outside (i := 2) rfl (Nat.le_of_eq hbinding)))
      all_goals rfl
  | satisfy =>
      rcases args with _ | ⟨t, _ | ⟨u, _ | ⟨w, _ | ⟨x, _ | ⟨y, rest⟩⟩⟩⟩⟩
      case cons.cons.cons.nil =>
        exact evalSatisfy_congr h (hargs u (by simp)) (hargs w (by simp)) ht hkey rfl
      case cons.cons.cons.cons.nil =>
        refine evalSatisfy_congr h (hargs u (by simp)) (hargs w (by simp)) ht hkey ?_
        refine congrArg (fun v => v >>= attemptCount)
          (hvalue (by simp) (ht.outside (i := 3) rfl (Nat.le_of_eq ?_)))
        exact congrArg Prod.snd (Tree.Avoids.binding_satisfy t u [w, x] hkey)
      all_goals rfl

end Construct

/-! ### Any tree -/

/-- An evaluator that gives trees the same values in scopes that agree on what they use. -/
def Evaluator.Agrees (s : Scope) (defined : List String) (deeper : Evaluator) : Prop :=
  ∀ {around disputed s₁ s₂}, Agree s defined around disputed s₁ s₂ →
    ∀ t : Tree, t.Avoids s defined around disputed → deeper s₁ t = deeper s₂ t

namespace Evaluate

variable {s s₁ s₂ : Scope} {defined around : List String} {disputed : String → Prop}
  {deeper : Evaluator} {head : Head} {name : String}

/-- The slots of a text are read and filled in alike. -/
theorem fillSlots_congr (hdeeper : deeper.Agrees s defined)
    (h : Scope.Agree s defined around disputed s₁ s₂) {content : String} {latex : Bool}
    (ht : (Tree.leaf (.text content false latex)).Avoids s defined around disputed) :
    fillSlots deeper s₁ content = fillSlots deeper s₂ content := by
  refine foldlM_congr (fun slot hslot filled => ?_) _
  obtain ⟨hread, havoids⟩ := ht.slot hslot
  rw [h.left.tree_eq hread, h.right.tree_eq hread]
  cases htree : s.tree slot.1 with
  | error e => rfl
  | ok o =>
      rw [Action.ofOutcome_ok_bind, Action.ofOutcome_ok_bind]
      cases o with
      | none => rfl
      | some t =>
          dsimp only
          rw [hdeeper h t (havoids t htree)]

theorem unknown_congr (h : Scope.Agree s defined around disputed s₁ s₂) :
    unknown s₁ head name = unknown s₂ head name := by
  have hempty (n : String) : (s₁.signatures n).isEmpty = (s₂.signatures n).isEmpty := by
    rw [Bool.eq_iff_iff, List.isEmpty_iff, List.isEmpty_iff, h.left.isEmpty, h.right.isEmpty]
  unfold unknown
  simp only [hempty]

/-- A function that makes no random choices has the same value for the same arguments. -/
theorem dispatch_congr (h : Scope.Agree s defined around disputed s₁ s₂) (hname : ¬s.MakesChoices name)
    (args : List Value) : dispatch deeper s₁ head name args = dispatch deeper s₂ head name args := by
  unfold dispatch
  rw [h.signatures name hname, unknown_congr h]
  cases hfs : s₂.signatures name with
  | nil => rfl
  | cons f fs =>
      dsimp only
      cases hfind : (f :: fs).find? fun f => f.takes args with
      | none => rfl
      | some g =>
          have hmem := List.mem_of_find?_eq_some hfind
          rw [← hfs] at hmem
          dsimp only
          unfold invoke
          cases hbody : g.body with
          | custom parameters result t => exact absurd hbody (h.right.noCustom name g hmem _ _ _)
          | _ => rfl

theorem tree_congr_node (h : Scope.Agree s defined around disputed s₁ s₂)
    {args : List Tree} (ht : (Tree.node head args).Avoids s defined around disputed)
    (hargs : ∀ t ∈ args, (suspended deeper t).Agrees s defined) :
    tree deeper s₁ false (.node head args) = tree deeper s₂ false (.node head args) := by
  have htrees (hmem : ∀ t ∈ args, t.Avoids s defined around disputed) :
      trees deeper s₁ false args = trees deeper s₂ false args := by
    rw [trees_eq_mapM, trees_eq_mapM]
    exact Action.mapM_congr fun t ht' => (hargs t ht').value h (hmem t ht')
  have hnone (hconstruct : head.key?.bind Construct.ofName? = none) :
      ∀ t ∈ args, t.Avoids s defined around disputed := by
    refine fun t => ht.of_mem ?_ ?_
    all_goals
      intro hkey
      rw [hkey] at hconstruct
      cases hconstruct
  unfold tree
  cases hname : head.name? with
  | none =>
      have hkey : head.key? = none := by
        rw [Head.key?, hname]
        rfl
      dsimp only
      rw [htrees (hnone (by rw [hkey]; rfl))]
  | some name =>
      have hchoices : ¬s.MakesChoices name := by
        cases ht.isOrderly with
        | node hchoices _ _ => exact hchoices name hname
      cases hconstruct : head.key?.bind Construct.ofName? with
      | none =>
          dsimp only
          rw [htrees (hnone hconstruct)]
          exact bind_congr fun vs => dispatch_congr h hchoices vs
      | some c =>
          dsimp only
          rw [h.signatures name hchoices]
          cases hfs : s₂.signatures name with
          | nil => rfl
          | cons f fs =>
              have hmem : f ∈ s₂.signatures name := by
                rw [hfs]
                exact List.mem_cons_self
              dsimp only
              unfold invokeUnevaluated
              cases hbody : f.body with
              | construct c =>
                  dsimp only
                  rw [suspend_eq_map]
                  exact Construct.eval_congr h ht
                    (key?_of_mem_signatures h.right.isRegular hname hmem hbody) hargs
              | custom parameters result t => exact absurd hbody (h.right.noCustom name f hmem _ _ _)
              | builtin p => rfl

theorem agrees_suspended (hdeeper : deeper.Agrees s defined) (t : Tree) :
    (suspended deeper t).Agrees s defined := by
  induction t using Tree.ind with
  | leaf v =>
      refine ⟨fun {around disputed s₁ s₂} h ht => ?_, fun hlist => by cases hlist⟩
      cases v with
      | text content safe latex =>
          show text deeper s₁ content safe latex = text deeper s₂ content safe latex
          unfold text
          split
          · rename_i hslots
            cases safe with
            | true => cases hslots
            | false => rw [fillSlots_congr hdeeper h ht]
          · rfl
      | name n hints =>
          show tree deeper s₁ false (.leaf (.name n hints)) = tree deeper s₂ false (.leaf (.name n hints))
          unfold tree
          rw [h.value n (ht.not_disputed _ (.name List.not_mem_nil))]
      | _ => rfl
  | node head args ih =>
      refine ⟨fun h ht => tree_congr_node h ht ih, fun {items} hlist i part hi => ?_⟩
      cases hlist
      change (values deeper args)[i]? = some part at hi
      rw [values_eq_map, List.getElem?_map] at hi
      obtain ⟨t, ht, rfl⟩ := Option.map_eq_some_iff.1 hi
      exact ⟨t, ht, fun h havoids => (ih t (List.mem_of_getElem? ht)).value h havoids⟩

theorem agrees_atLevel : (n : Nat) → (atLevel n).Agrees s defined
  | 0 => fun _ _ _ => rfl
  | n + 1 => fun h t ht => (agrees_suspended (agrees_atLevel n) t).value h ht

end Evaluate

/-- **Coincidence.** A tree has the same value in two scopes that agree on the names that it uses. -/
theorem Scope.Agree.eval_eq {s s₁ s₂ : Scope} {defined around : List String}
    {disputed : String → Prop} (h : Agree s defined around disputed s₁ s₂) {t : Tree}
    (ht : t.Avoids s defined around disputed) :
    s₁.eval t = s₂.eval t :=
  (Evaluate.agrees_suspended (Evaluate.agrees_atLevel _) t).value h ht

/-! ### Trees without random choices -/

/-- A signature that makes no random choice: one that would does something else. -/
def Signature.hushed (f : Signature) : Signature :=
  if f.isRandom then { f with body := .builtin .same } else f

namespace Signature

variable {f : Signature}

theorem hushed_eq (h : f.isRandom = false) : f.hushed = f := by
  rw [hushed, h, if_neg Bool.false_ne_true]

theorem hushed_eq_or (f : Signature) : f.hushed = f ∧ f.isRandom = false ∨ f.hushed.body = .builtin .same := by
  unfold hushed
  cases f.isRandom with
  | true => exact .inr rfl
  | false => exact .inl ⟨rfl, rfl⟩

theorem isRandom_of_body_hushed {p : Primitive} (h : f.hushed.body = .builtin p) :
    p.isRandom = false := by
  rcases f.hushed_eq_or with ⟨heq, hrandom⟩ | hbody
  · rw [heq] at h
    unfold isRandom at hrandom
    rwa [h] at hrandom
  · cases hbody.symm.trans h
    rfl

end Signature

namespace Scope

variable {s s' : Scope} {defined around : List String}

/-- The scope with all random choices replaced. -/
def hushed (s : Scope) : Scope :=
  { s with functions := s.functions.mapEntries (List.map Signature.hushed) }

theorem signatures_hushed (s : Scope) (name : String) :
    s.hushed.signatures name = (s.signatures name).map Signature.hushed := by
  show ((s.functions.mapEntries (List.map Signature.hushed)).find? (Text.lower name)).getD [] = _
  rw [Table.find?_mapEntries]
  unfold signatures
  cases s.functions.find? (Text.lower name) with
  | none => rfl
  | some fs => rfl

theorem isQuiet_hushed (s : Scope) : s.hushed.IsQuiet := by
  intro name f hf p hp
  rw [signatures_hushed] at hf
  obtain ⟨g, -, rfl⟩ := List.mem_map.1 hf
  exact Signature.isRandom_of_body_hushed hp

/-- What holds of all signatures but operations. -/
theorem eachSignature_hushed {P : String → Signature → Prop} (h : s.EachSignature P)
    (hbuiltin : ∀ key f p, f.body = .builtin p → P key f) : s.hushed.EachSignature P := by
  intro name f hf
  rw [signatures_hushed] at hf
  obtain ⟨g, hg, rfl⟩ := List.mem_map.1 hf
  rcases g.hushed_eq_or with ⟨heq, -⟩ | hbody
  · rw [heq]
    exact h name g hg
  · exact hbuiltin _ _ _ hbody

theorem Extends.hushed {names : List String} (h : s.Extends names s') :
    s.Extends names s'.hushed where
  isRegular := eachSignature_hushed h.isRegular fun _ f p hp c hc => by
    rw [hp] at hc
    cases hc
  noCustom := eachSignature_hushed h.noCustom fun _ f p hp _ _ _ hcustom => by
    rw [hp] at hcustom
    cases hcustom
  isEmpty name := by
    rw [signatures_hushed, List.map_eq_nil_iff]
    exact h.isEmpty name
  binds := h.binds

/-- An orderly tree draws no random numbers, even where there are functions that would. -/
theorem Extends.drawsNothing_eval (h : s.Extends (around ++ defined) s')
    (hchoices : ∀ name, s'.MakesChoices name → s.MakesChoices name)
    {t : Tree} (ht : t.IsOrderly s defined around) : Action.DrawsNothing (s'.eval t) := by
  have hagree : Agree s defined around (fun _ => False) s' s'.hushed :=
    { left := h
      right := h.hushed
      signatures := fun name hname => by
        rw [signatures_hushed]
        refine ((List.map_congr_left fun f hf => Signature.hushed_eq ?_).trans (List.map_id _)).symm
        rw [← Bool.not_eq_true]
        exact fun hrandom => hname (hchoices name ⟨f, hf, hrandom⟩)
      value := fun _ _ => rfl
      defined_of_disputed := fun _ hn => hn.elim }
  rw [hagree.eval_eq ⟨ht, fun _ _ => id⟩]
  exact s'.isQuiet_hushed.drawsNothing_eval t

/-- Random choices are made where the functions make them. -/
theorem makesChoices_of_functions (h : s'.functions = s.child.functions) {name : String}
    (hname : s'.MakesChoices name) : s.MakesChoices name := by
  obtain ⟨f, hf, hrandom⟩ := hname
  refine ⟨f, mem_signatures_child.1 ?_, hrandom⟩
  unfold signatures at hf ⊢
  rwa [h] at hf

/-- Of the names that get their values late an orderly tree only needs those that it mentions. -/
theorem Extends.eval_eq_bindAll (h : s.Extends defined s') {s₀ : Scope}
    (hfunctions : s'.functions = s₀.functions)
    (hvalue : ∀ n, Text.lower n ∉ defined → s'.value? n = s₀.value? n) {t : Tree}
    (ht : t.IsOrderly s defined []) {needed : List String} (hneeded : FreeNames.ofTree s.tree [] t = .ok needed)
    (hkeys : ∀ n ∈ needed, Text.lower n = n) {w : String → Value}
    (hw : ∀ n ∈ needed, s'.value? n = some (w n)) :
    s'.eval t = (s₀.bindAll (needed.map fun n => (n, w n))).eval t := by
  have hneither (n : String) (hn : ¬(Text.lower n ∈ defined ∧ Text.lower n ∉ needed)) :
      s'.value? n = (s₀.bindAll (needed.map fun n => (n, w n))).value? n := by
    rw [s₀.value?_bindAll_map hkeys]
    split
    · rw [← value?_lower, hw _ ‹_›]
    · exact hvalue n fun hmem => hn ⟨hmem, ‹_›⟩
  have hagree : Agree s defined [] (fun n => n ∈ defined ∧ n ∉ needed) s'
      (s₀.bindAll (needed.map fun n => (n, w n))) :=
    { left := h
      right := by
        refine h.of_functions ((functions_bindAll ..).trans hfunctions.symm) fun n hn => ?_
        rw [← h.binds n hn, Scope.binds, Scope.binds, hneither n fun hmem => hn hmem.1]
      signatures := fun name _ => by
        unfold signatures
        rw [hfunctions, functions_bindAll]
      value := hneither
      defined_of_disputed := fun n hn => hn.1 }
  refine hagree.eval_eq ⟨ht, fun n hn hdisputed => hdisputed.2 ?_⟩
  exact (FreeNames.mem_iff_freeIn s.readsShorter_tree hneeded).2 hn

end Scope

end MathExpr
