import MathExpr.Proofs.OperationFailures
import MathExpr.Proofs.ValuesAsLeaves

/-!
# Names that stand for themselves

A tree may be evaluated so that a name without a value stands for itself. This changes nothing about a tree
whose names have values (`Scope.evalUnbound_of_eval`), but it does not reach every name: the arguments of a
construct and the slots of a text are evaluated as ever. Such a part of a tree is *sealed*. Where the
functions are built in, a name without a value is an error only if it is one in a sealed part
(`Scope.evalUnbound_undefinedVariable`).
-/

namespace MathExpr

open MathExpr.Action (runFrom)

/-! ### Sealed parts -/

namespace Head

/-- Whether a node applies a construct. -/
def isConstruct (h : Head) : Bool := (h.key?.bind Construct.ofName?).isSome

theorem ofName?_eq_none (h : Head) (hh : h.isConstruct = false) :
    h.key?.bind Construct.ofName? = none := by
  rw [← Option.not_isSome_iff_eq_none, ← isConstruct, hh]
  exact Bool.false_ne_true

end Head

namespace Tree

mutual

/-- The calls of constructs and the texts with slots in a tree, apart from those inside of others. -/
def sealedParts : Tree → List Tree
  | leaf v => if v.hasSlot then [leaf v] else []
  | node h args => if h.isConstruct then [node h args] else sealedPartsOf args

/-- The sealed parts of the trees of a list. -/
def sealedPartsOf : List Tree → List Tree
  | [] => []
  | t :: ts => sealedParts t ++ sealedPartsOf ts

end

theorem mem_sealedPartsOf {u : Tree} {ts : List Tree} :
    u ∈ sealedPartsOf ts ↔ ∃ t ∈ ts, u ∈ t.sealedParts := by
  induction ts with
  | nil => simp [sealedPartsOf]
  | cons t ts ih => simp [sealedPartsOf, ih]

theorem sealedParts_construct {h : Head} (hh : h.isConstruct = true) (args : List Tree) :
    sealedParts (.node h args) = [.node h args] := by
  rw [sealedParts, if_pos hh]

theorem sealedParts_node {h : Head} (hh : h.isConstruct = false) (args : List Tree) :
    sealedParts (.node h args) = sealedPartsOf args := by
  rw [sealedParts, if_neg (Bool.not_eq_true _ ▸ hh)]

end Tree

/-! ### Where names may stand for themselves -/

namespace Action

variable {α β : Type}

/-- Two actions do the same from where the first does not fail with an undefined variable. -/
def SameIfDefined (x y : Action α) : Prop :=
  ∀ d, (∃ n, (runFrom x d).1 = .error (.error (.undefinedVariable n))) ∨ runFrom y d = runFrom x d

namespace SameIfDefined

theorem refl (x : Action α) : SameIfDefined x x := fun _ => .inr rfl

theorem bind {x y : Action α} {f g : α → Action β} (h : SameIfDefined x y)
    (hfg : ∀ a, SameIfDefined (f a) (g a)) : SameIfDefined (x >>= f) (y >>= g) := by
  intro d
  rw [runFrom_bind, runFrom_bind]
  rcases h d with ⟨n, hn⟩ | heq
  · refine .inl ⟨n, ?_⟩
    generalize runFrom x d = o at hn
    obtain ⟨r, d'⟩ := o
    cases hn
    rfl
  · rw [heq]
    rcases runFrom x d with ⟨r, d'⟩
    cases r with
    | error e => exact .inr rfl
    | ok a => exact hfg a d'

end SameIfDefined

end Action

namespace Evaluate

open MathExpr.Action (SameIfDefined)

variable (deeper : Evaluator) (s : Scope)

/-- What is sealed is evaluated alike whether or not names may stand for themselves. -/
theorem tree_isConstruct {h : Head} (hh : h.isConstruct = true) (args : List Tree) (allowUnbound : Bool) :
    tree deeper s allowUnbound (.node h args) = tree deeper s false (.node h args) := by
  obtain ⟨c, hc⟩ := Option.isSome_iff_exists.1 hh
  unfold tree
  cases hname : h.name? with
  | none =>
      rw [Head.key?, hname] at hc
      cases hc
  | some name => simp only [hc]

/-- What is made of the values of the arguments of a node that applies no construct. -/
def ofValues (h : Head) (vs : List Value) : Action Value :=
  match h.name? with
  | none => return .list vs
  | some name => dispatch deeper s h name vs

theorem tree_node {h : Head} (hh : h.isConstruct = false) (args : List Tree) (allowUnbound : Bool) :
    tree deeper s allowUnbound (.node h args) =
      trees deeper s allowUnbound args >>= ofValues deeper s h := by
  unfold tree ofValues
  cases h.name? with
  | none => rfl
  | some name => simp only [h.ofName?_eq_none hh]

theorem tree_leaf {v : Value} (hv : ∀ n hints, v ≠ .name n hints) (allowUnbound : Bool) :
    tree deeper s allowUnbound (.leaf v) = tree deeper s false (.leaf v) := by
  cases v with
  | name n hints => exact absurd rfl (hv n hints)
  | _ => rfl

theorem tree_sealedPart {t u : Tree} (hu : u ∈ t.sealedParts) (allowUnbound : Bool) :
    tree deeper s allowUnbound u = tree deeper s false u := by
  induction t using Tree.ind with
  | leaf v =>
      rw [Tree.sealedParts] at hu
      split at hu
      · rename_i hslot
        rw [List.mem_singleton.1 hu]
        refine tree_leaf deeper s (fun n hints heq => ?_) allowUnbound
        rw [heq] at hslot
        cases hslot
      · cases hu
  | node h args ih =>
      cases hh : h.isConstruct with
      | true =>
          rw [Tree.sealedParts_construct hh, List.mem_singleton] at hu
          rw [hu]
          exact tree_isConstruct deeper s hh args allowUnbound
      | false =>
          rw [Tree.sealedParts_node hh] at hu
          obtain ⟨t, ht, hu⟩ := Tree.mem_sealedPartsOf.1 hu
          exact ih t ht hu

mutual

theorem sameIfDefined_tree : (t : Tree) → SameIfDefined (tree deeper s false t) (tree deeper s true t)
  | .leaf v => by
      cases v with
      | name n hints =>
          unfold tree
          cases s.value? n with
          | some v => exact .refl _
          | none => exact fun d => .inl ⟨n, rfl⟩
      | _ => exact .refl _
  | .node h args => by
      cases hh : h.isConstruct with
      | true =>
          rw [tree_isConstruct deeper s hh args true]
          exact .refl _
      | false =>
          rw [tree_node deeper s hh, tree_node deeper s hh]
          exact (sameIfDefined_trees args).bind fun _ => .refl _

theorem sameIfDefined_trees : (ts : List Tree) →
    SameIfDefined (trees deeper s false ts) (trees deeper s true ts)
  | [] => .refl _
  | t :: ts => by
      unfold trees
      exact (sameIfDefined_tree t).bind fun _ => (sameIfDefined_trees ts).bind fun _ => .refl _

end

end Evaluate

/-! ### Names without a value that are errors -/

namespace Evaluate

open Library (isCustom)
open MathExpr.Action (FailsAsOperation)

variable (deeper : Evaluator) {s : Scope}

theorem isOfOperation_unknown (h : Head) (name : String) :
    (Failure.error (unknown s h name)).isOfOperation = true := by
  unfold unknown
  split
  · dsimp only
    split <;> rfl
  · rfl
  · rfl

theorem isOfOperation_noFit (name : String) (args : List Value) :
    (Failure.error (noFit name args)).isOfOperation = true := by
  unfold noFit
  split <;> rfl

/-- Applying functions that are not custom fails only as an operation does. -/
theorem fails_dispatch (hs : s.EachSignature fun _ f => isCustom f = false) (h : Head) (name : String)
    (args : List Value) : (dispatch deeper s h name args).FailsAsOperation := by
  unfold dispatch
  split
  · exact .fail (isOfOperation_unknown h name)
  · split
    · rename_i f hfind
      have hf : isCustom f = false := hs name f (List.mem_of_find?_eq_some hfind)
      unfold invoke
      split
      · exact Primitive.fails_apply _ _
      · exact .breakDown _
      · rename_i hbody
        unfold isCustom at hf
        rw [hbody] at hf
        cases hf
    · exact .fail (isOfOperation_noFit name args)

theorem fails_ofValues (hs : s.EachSignature fun _ f => isCustom f = false) (h : Head) (vs : List Value) :
    (ofValues deeper s h vs).FailsAsOperation := by
  unfold ofValues
  split
  · exact .pure _
  · exact fails_dispatch deeper hs h _ vs

/-- A failure of an operation, or of the evaluation of a sealed part of a tree. -/
def MayFail (s : Scope) (parts : List Tree) (e : Failure) : Prop :=
  e.isOfOperation = true ∨ ∃ u ∈ parts, ∃ d d', runFrom (tree deeper s false u) d = (.error e, d')

theorem MayFail.mono {parts more : List Tree} (h : parts ⊆ more) {e : Failure}
    (he : MayFail deeper s parts e) : MayFail deeper s more e :=
  he.imp_right fun ⟨u, hu, hfails⟩ => ⟨u, h hu, hfails⟩

theorem ends_sealedPart {t : Tree} (ht : t.sealedParts = [t]) :
    (tree deeper s true t).Ends (fun _ => True) (MayFail deeper s t.sealedParts) := by
  have hmem : t ∈ t.sealedParts := by
    rw [ht]
    exact List.mem_singleton_self t
  rw [tree_sealedPart deeper s hmem true]
  exact (Action.ends_self _).imp (fun _ _ => trivial) fun e he => .inr ⟨t, hmem, he⟩

mutual

/-- Where names may stand for themselves, evaluation fails as an operation does, or as a sealed part. -/
theorem ends_tree (hs : s.EachSignature fun _ f => isCustom f = false) : (t : Tree) →
    (tree deeper s true t).Ends (fun _ => True) (MayFail deeper s t.sealedParts)
  | .leaf v => by
      cases hslot : v.hasSlot with
      | true => exact ends_sealedPart deeper (by rw [Tree.sealedParts, if_pos hslot])
      | false =>
          by_cases hname : ∃ n hints, v = .name n hints
          · obtain ⟨n, hints, rfl⟩ := hname
            unfold tree
            split <;> exact Action.ends_pure trivial
          · have hne : ∀ n hints, v ≠ .name n hints := fun n hints heq => hname ⟨n, hints, heq⟩
            obtain ⟨w, hw, -⟩ := tree_leaf_of_hasSlot deeper s hne hslot
            rw [tree_leaf deeper s hne true, hw]
            exact Action.ends_pure trivial
  | .node h args => by
      cases hh : h.isConstruct with
      | true => exact ends_sealedPart deeper (Tree.sealedParts_construct hh args)
      | false =>
          rw [Tree.sealedParts_node hh, tree_node deeper s hh]
          exact Action.ends_bind (ends_trees hs args) fun vs _ =>
            (fails_ofValues deeper hs h vs).imp (fun _ h => h) fun _ => .inl

theorem ends_trees (hs : s.EachSignature fun _ f => isCustom f = false) : (ts : List Tree) →
    (trees deeper s true ts).Ends (fun _ => True) (MayFail deeper s (Tree.sealedPartsOf ts))
  | [] => Action.ends_pure trivial
  | t :: ts => by
      rw [trees, Tree.sealedPartsOf]
      refine Action.ends_bind ((ends_tree hs t).imp (fun _ h => h) fun e => ?_) fun v _ =>
        Action.ends_bind ((ends_trees hs ts).imp (fun _ h => h) fun e => ?_) fun vs _ =>
          Action.ends_pure trivial
      · exact MayFail.mono deeper (List.subset_append_left _ _)
      · exact MayFail.mono deeper (List.subset_append_right _ _)

end

end Evaluate

namespace Scope

/-- A tree whose evaluation does not fail with an undefined variable is evaluated alike where names may
stand for themselves. -/
theorem evalUnbound_of_eval (s : Scope) (t : Tree) (d : Draws)
    (h : ∀ n, (runFrom (s.eval t) d).1 ≠ .error (.error (.undefinedVariable n))) :
    runFrom (s.evalUnbound t) d = runFrom (s.eval t) d := by
  rcases Evaluate.sameIfDefined_tree (Evaluate.atLevel Evaluate.levels) s t d with ⟨n, hn⟩ | heq
  · exact absurd hn (h n)
  · exact heq

/-- **Names that stand for themselves.** In a scope without custom functions, where a name without a value
is allowed, it is its own value, except in the sealed parts of a tree, whose value is the same as ever. So
whenever the evaluation of the tree fails with an undefined variable, the evaluation of a sealed part, as
it is without this allowance, does. -/
theorem evalUnbound_undefinedVariable (s : Scope)
    (hs : s.EachSignature fun _ f => Library.isCustom f = false) (t : Tree) :
    (∀ n hints, s.value? n = none →
        s.evalUnbound (.leaf (.name n hints)) = pure (.name n hints)) ∧
      (∀ u ∈ t.sealedParts, s.evalUnbound u = s.eval u) ∧
      ∀ n d d', runFrom (s.evalUnbound t) d = (.error (.error (.undefinedVariable n)), d') →
        ∃ u ∈ t.sealedParts, ∃ d₁ d₂,
          runFrom (s.eval u) d₁ = (.error (.error (.undefinedVariable n)), d₂) := by
  refine ⟨fun n hints hn => ?_, fun u hu => ?_, fun n d d' hfails => ?_⟩
  · show Evaluate.tree _ s true (.leaf (.name n hints)) = _
    unfold Evaluate.tree
    rw [hn]
    rfl
  · exact Evaluate.tree_sealedPart _ s hu true
  · have hends : (s.evalUnbound t).Ends _ _ := Evaluate.ends_tree _ hs t
    have hfailure := hends d
    rw [hfails] at hfailure
    rcases hfailure with hoperation | hsealed
    · cases hoperation
    · exact hsealed

theorem HoldsBuiltIns.isCustom_eq_false {s : Scope} (hs : s.HoldsBuiltIns) :
    s.EachSignature fun _ f => Library.isCustom f = false := by
  intro name f hf
  unfold Library.isCustom
  split
  · rename_i hbody
    exact absurd hbody (hs.body_ne_custom name f hf _ _ _)
  · rfl

/-- A list of two trees fails where the second does. -/
theorem evalUnbound_pair {s : Scope} {t u : Tree} {v : Value} {e : Failure} {d d' : Draws}
    (ht : s.evalUnbound t = pure v) (hu : runFrom (s.evalUnbound u) d = (.error e, d')) :
    runFrom (s.evalUnbound (.node .list [t, u])) d = (.error e, d') := by
  have hlist : s.evalUnbound (.node .list [t, u]) =
      [t, u].mapM s.evalUnbound >>= fun vs => pure (.list vs) := by
    show Evaluate.tree _ s true (.node .list [t, u]) = _
    rw [Evaluate.tree_node _ s rfl, Evaluate.trees_eq_mapM]
    rfl
  rw [hlist, List.mapM_cons, List.mapM_cons, ht, pure_bind, bind_assoc, bind_assoc,
    Action.runFrom_bind, hu]

/-- `if(true, y, 0)` -/
def unboundBranch : Tree :=
  .node (.call "if") [.leaf (.boolean true), .leaf (.name "y" []), .leaf (.nat 0)]

theorem evalUnbound_unboundBranch (d : Draws) :
    runFrom (Library.scope.evalUnbound unboundBranch) d = (.error (.error (.undefinedVariable "y")), d) := by
  have hcall : Library.scope.evalUnbound unboundBranch = _ :=
    Library.tree_construct (c := .conditional) _ rfl rfl true _
  rw [hcall]
  rfl

/-- In `[x, if(true, y, 0)]` the name `x` stands for itself, and `y` is an error in the sealed part. -/
theorem evalUnbound_undefinedVariable_list :
    runFrom (Library.scope.evalUnbound (.node .list [.leaf (.name "x" []), unboundBranch])) .default =
        (.error (.error (.undefinedVariable "y")), .default) ∧
      ∃ u ∈ (Tree.node .list [.leaf (.name "x" []), unboundBranch]).sealedParts, ∃ d₁ d₂,
        runFrom (Library.scope.eval u) d₁ = (.error (.error (.undefinedVariable "y")), d₂) := by
  have hstands := evalUnbound_undefinedVariable Library.scope holdsBuiltIns_scope.isCustom_eq_false
    (.node .list [.leaf (.name "x" []), unboundBranch])
  have hfails := evalUnbound_pair (hstands.1 "x" [] (Library.value?_scope "x"))
    (evalUnbound_unboundBranch .default)
  exact ⟨hfails, hstands.2.2 "y" _ _ hfails⟩

/-- Not every name stands for itself: in a branch of a construct it may be an error. -/
theorem not_evalUnbound_defined :
    ¬∀ (s : Scope) (t : Tree) (d : Draws) (n : String), s.HoldsBuiltIns →
      (runFrom (s.evalUnbound t) d).1 ≠ .error (.error (.undefinedVariable n)) := by
  intro h
  refine h Library.scope unboundBranch .default "y" holdsBuiltIns_scope ?_
  rw [evalUnbound_unboundBranch]

end Scope

end MathExpr
