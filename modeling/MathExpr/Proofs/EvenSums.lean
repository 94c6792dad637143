import MathExpr.Proofs.SumRules

/-!
# Sums of operands of one kind

Where every sum of a tree has operands of one kind and all arithmetic in it has a magnitude
of at most `2 ^ 53` (`Tree.IsEven`), rules that regroup sums or pass over them do nothing
else to sums of lists and texts: every firing is safe, and what it makes of the tree is
such a tree again (`Simplify.FiresAt.isEven`), so that the whole way is safe
(`Simplify.isSafeWay_of_isEven`).
-/

namespace MathExpr

open MathExpr.Action (runFrom)

/-! ### Magnitudes of integers -/

namespace Interpretation

theorem natAbs_le_operator? {symbol : String} {ns : List Int} {ms : List ℕ+} {n : Int} {m : ℕ+}
    (hn : (integers fun _ => 0).operator? symbol ns = some n)
    (hm : magnitudes.operator? symbol ms = some m)
    (hbounds : List.Forall₂ (fun n (m : ℕ+) => n.natAbs ≤ (m : ℕ)) ns ms) : n.natAbs ≤ (m : ℕ) := by
  unfold operator? at hn hm
  rcases hbounds with _ | @⟨a, k, _, _, hle, _ | @⟨b, l, _, _, hle', _ | _⟩⟩
  · cases hn
  · simp only at hn hm
    split_ifs at hn hm <;> cases hn <;> cases hm
    · exact hle
    · exact (Int.natAbs_neg a).trans_le hle
  · simp only at hn hm
    split_ifs at hn hm <;> cases hn <;> cases hm
    · exact (Int.natAbs_add_le a b).trans (add_le_add hle hle')
    · exact (Int.natAbs_sub_le a b).trans (add_le_add hle hle')
    · exact (Int.natAbs_mul a b).trans_le (Nat.mul_le_mul hle hle')
  · cases hn

end Interpretation

namespace Tree

mutual

/-- The integer that a tree stands for is not larger than the magnitude of the tree. -/
theorem natAbs_le_of_magnitude? : (t : Tree) → ∀ n m, t.integer? = some n → t.magnitude? = some m →
    n.natAbs ≤ (m : ℕ)
  | .leaf v, n, m, hn, hm => by
      cases v with
      | number a =>
          cases a with
          | real x =>
              obtain ⟨k, hk, rfl⟩ := Option.map_eq_some_iff.1 hm
              cases ((integer?_real x).symm.trans hn).symm.trans hk
              exact le_max_right 1 n.natAbs
          | complex z => cases hn
      | _ => cases hn
  | .node h args, n, m, hn, hm => by
      obtain ⟨o, ns, rfl, hns, hn⟩ := integer?_node_eq_some.1 hn
      obtain ⟨o', ms, ho, hms, hm⟩ := interpret_node_eq_some.1 hm
      cases ho
      exact Interpretation.natAbs_le_operator? hn hm (natAbs_le_of_magnitudes args ns ms hns hms)

theorem natAbs_le_of_magnitudes : (ts : List Tree) → ∀ ns ms,
    List.Forall₂ (fun t n => t.integer? = some n) ts ns → interpretAll .magnitudes ts = some ms →
      List.Forall₂ (fun n (m : ℕ+) => n.natAbs ≤ (m : ℕ)) ns ms
  | [], _, ms, .nil, hms => by
      cases hms
      exact .nil
  | t :: ts, _, ms, .cons hn hns, hms => by
      obtain ⟨m, ms', hm, hms', rfl⟩ := interpretAll_cons_eq_some.1 hms
      exact .cons (natAbs_le_of_magnitude? t _ m hn hm) (natAbs_le_of_magnitudes ts _ ms' hns hms')

end

/-! ### Even trees -/

/-- Whether a tree is arithmetic of a magnitude of at most `2 ^ 53`. -/
def isSmall (t : Tree) : Bool := (t.magnitude?.map fun m => decide ((m : ℕ) ≤ 2 ^ 53)).getD false

/-- Whether a tree is no operator with two operands of different kinds. -/
def hasLikeOperands : Tree → Bool
  | .node (.op _) args =>
    match kinds? args with
    | some [j, k] => j == k
    | _ => true
  | _ => true

/-- Whether a tree is a small number, or a list, a text, or a sum of operands of one kind. -/
def isEvenPart (t : Tree) : Bool :=
  if t.kind? = some "number" then t.isSmall else t.kind?.isSome && t.hasLikeOperands

/-- All sums in a tree have operands of one kind, and all numbers have a magnitude of at most `2 ^ 53`. -/
def IsEven (t : Tree) : Prop := ∀ v ∈ t.subtrees, v.isEvenPart = true

variable {t u v : Tree}

theorem isSmall_iff : t.isSmall = true ↔ ∃ m : ℕ+, t.magnitude? = some m ∧ (m : ℕ) ≤ 2 ^ 53 := by
  unfold isSmall
  cases t.magnitude? with
  | none => simp
  | some m => simp

theorem isEvenPart_of_number (h : t.kind? = some "number") : t.isEvenPart = t.isSmall := by
  unfold isEvenPart
  rw [if_pos h]

/-- A sum that is no number is even if its operands are of one kind. -/
theorem isEvenPart_of_kind? {k : String} (h : t.kind? = some k) (hk : k ≠ "number") :
    t.isEvenPart = t.hasLikeOperands := by
  unfold isEvenPart
  rw [h, if_neg fun heq => hk (Option.some.inj heq)]
  rfl

theorem IsEven.exists_kind? (h : t.IsEven) : ∃ k, t.kind? = some k := by
  have hpart := h t (mem_subtrees_self t)
  unfold isEvenPart at hpart
  split_ifs at hpart with hnumber
  · exact ⟨_, hnumber⟩
  · exact Option.isSome_iff_exists.1 (Bool.and_eq_true_iff.1 hpart).1

theorem IsEven.of_mem_subtrees (h : t.IsEven) (hv : v ∈ t.subtrees) : v.IsEven :=
  fun w hw => h w (subtrees_trans hv hw)

theorem IsEven.of_mem {h : Head} {args : List Tree} (hargs : IsEven (.node h args)) {t : Tree}
    (ht : t ∈ args) : t.IsEven :=
  hargs.of_mem_subtrees (subtrees_of_mem ht (mem_subtrees_self t))

theorem isEven_node {h : Head} {args : List Tree} :
    IsEven (.node h args) ↔ (Tree.node h args).isEvenPart = true ∧ ∀ t ∈ args, t.IsEven := by
  constructor
  · exact fun h => ⟨h _ (mem_subtrees_self _), fun t ht => h.of_mem ht⟩
  · rintro ⟨hnode, hargs⟩ v hv
    rcases List.mem_cons.1 hv with rfl | hv
    · exact hnode
    · obtain ⟨t, ht, hv⟩ := mem_subtreesOf.1 hv
      exact hargs t ht v hv

/-- Even trees only meet small integers. -/
theorem IsEven.staysSmall (h : t.IsEven) : t.StaysSmall := by
  intro v hv n hn
  have hpart := h v hv
  rw [isEvenPart_of_number (kind?_of_integer? v n hn), isSmall_iff] at hpart
  obtain ⟨m, hm, hmax⟩ := hpart
  exact (natAbs_le_of_magnitude? v n m hn hm).trans hmax

/-- Arithmetic is even if it is small. -/
theorem isEven_of_isSmall {n : Int} (hn : t.integer? = some n) (hsmall : t.isSmall = true) : t.IsEven := by
  intro v hv
  obtain ⟨m, hm, hmax⟩ := isSmall_iff.1 hsmall
  obtain ⟨k, hk⟩ := exists_integer?_of_mem_subtrees t hn hv
  obtain ⟨j, hj, hjm⟩ := magnitude?_of_mem_subtrees t hv m hm
  rw [isEvenPart_of_number (kind?_of_integer? v k hk)]
  exact isSmall_iff.2 ⟨j, hj, (PNat.coe_le_coe _ _ |>.2 hjm).trans hmax⟩

/-! ### Kinds -/

theorem kind?_node_congr {h : Head} {ts us : List Tree} (htu : kinds? ts = kinds? us) :
    (Tree.node h ts).kind? = (Tree.node h us).kind? := by
  cases h with
  | op o => rw [kind?, kind?, htu]
  | call name => rfl
  | list => rw [kind?, kind?, htu]

theorem hasLikeOperands_congr {h : Head} {ts us : List Tree} (htu : kinds? ts = kinds? us) :
    (Tree.node h ts).hasLikeOperands = (Tree.node h us).hasLikeOperands := by
  cases h with
  | op o => rw [hasLikeOperands, hasLikeOperands, htu]
  | call name => rfl
  | list => rfl

theorem kinds?_append (htu : t.kind? = u.kind?) (before after : List Tree) :
    kinds? (before ++ t :: after) = kinds? (before ++ u :: after) := by
  induction before with
  | nil =>
      rw [List.nil_append, List.nil_append, kinds?, kinds?, htu]
  | cons v before ih =>
      rw [List.cons_append, List.cons_append, kinds?, kinds?, ih]

theorem hasLikeOperands_pair {o : Operator} {x y : Tree} {j k : String} (hx : x.kind? = some j)
    (hy : y.kind? = some k) : (Tree.node (.op o) [x, y]).hasLikeOperands = (j == k) := by
  rw [hasLikeOperands, kinds?_eq_some.2 (.cons hx (.cons hy .nil))]

/-- An even sum of lists or texts has operands of its own kind. -/
theorem IsEven.operands {o : Operator} {args : List Tree} {k : String}
    (h : IsEven (.node (.op o) args)) (hk : (Tree.node (.op o) args).kind? = some k)
    (hsum : k ∈ ["string", "list"]) :
    ∃ x y, args = [x, y] ∧ o.symbol = "+" ∧ x.kind? = some k ∧ y.kind? = some k := by
  have hnumber : k ≠ "number" := by
    rintro rfl
    simp at hsum
  have hlike := (isEvenPart_of_kind? hk hnumber).symm.trans (h _ (mem_subtrees_self _))
  obtain ⟨ks, hks, hk'⟩ := kind?_op.1 hk
  rcases Library.operatorKind?_cases hk' with ⟨hk', -⟩ | ⟨ho, i, j, p, rfl, hp, rfl⟩
  · exact absurd hk' hnumber
  rcases hks with _ | @⟨x, _, _, _, hx, _ | @⟨y, _, _, _, hy, _ | _⟩⟩
  have hij : i = j := by
    rw [hasLikeOperands_pair hx hy] at hlike
    exact beq_iff_eq.1 hlike
  subst hij
  have hi : i = if p = .join then "string" else "list" := by
    rcases Library.sum?_cases hp with ⟨hi, -, rfl⟩ | ⟨hi, hne, -⟩ | rfl
    · exact hi
    · exact absurd hi hne
    · unfold Library.sum? at hp
      split at hp <;> simp_all
  exact ⟨x, y, rfl, ho, hi ▸ hx, hi ▸ hy⟩

/-- A regrouped sum is of the same kind. -/
theorem Regroups.kind?_eq (h : Regroups t u) : u.kind? = t.kind? := by
  cases h with
  | @intro o o' p p' x y z j k l ho ho' hp hp' hx hy hz hgroups =>
      have hassoc : ∀ j ∈ ["number", "string", "list"], ∀ k ∈ ["number", "string", "list"],
          ∀ l ∈ ["number", "string", "list"], Value.groups j k l = true →
            ((Library.operatorKind? "+" [j, k]).bind fun m => Library.operatorKind? "+" [m, l]) =
              (Library.operatorKind? "+" [k, l]).bind fun m => Library.operatorKind? "+" [j, m] := by
        decide
      have heq := hassoc j (kind?_mem x hx) k (kind?_mem y hy) l (kind?_mem z hz) hgroups
      simp only [kind?, kinds?, hx, hy, hz, ho, ho', hp, hp', Option.bind_some, Option.map_some]
      generalize Library.operatorKind? "+" [j, k] = a at heq ⊢
      generalize Library.operatorKind? "+" [k, l] = b at heq ⊢
      cases a <;> cases b <;> exact heq

/-- What may be regrouped is a list or a text. -/
theorem Regroups.kind?_mem (h : Regroups t u) {k : String} (hk : t.kind? = some k) :
    k ∈ ["string", "list"] := by
  cases h with
  | @intro o o' p p' x y z j k' l ho ho' hp hp' hx hy hz hgroups =>
      obtain ⟨m, hm, hkind⟩ := exists_kind?_of_groups ho' hy hz hgroups
      obtain ⟨ks, hks, hk⟩ := kind?_op.1 hk
      rcases Library.operatorKind?_cases hk with ⟨-, hnumbers, -⟩ | ⟨-, i, j, q, -, -, rfl⟩
      · rw [kinds_eq_number hks hnumbers _ (List.mem_cons_of_mem _ List.mem_cons_self)] at hkind
        rw [← Option.some.inj hkind] at hm
        simp at hm
      · split_ifs <;> decide

/-- A regrouped even sum is even. -/
theorem Regroups.isEven (h : Regroups t u) (ht : t.IsEven) : u.IsEven := by
  obtain ⟨k, hk⟩ := ht.exists_kind?
  have hksum := h.kind?_mem hk
  have hku := h.kind?_eq.trans hk
  have hnumber : k ≠ "number" := by
    rintro rfl
    simp at hksum
  cases h with
  | @intro o o' p p' x y z _ _ _ ho ho' hp hp' _ _ _ _ =>
      obtain ⟨_, _, heq, -, hx, hyz⟩ := ht.operands hk hksum
      cases heq
      have hyzeven : IsEven (.node (.op o') [y, z]) := ht.of_mem (by simp)
      obtain ⟨_, _, heq, -, hy, hz⟩ := hyzeven.operands hyz hksum
      cases heq
      have hxy : (Tree.node (.op p') [x, y]).kind? = some k := by
        obtain ⟨_, _ | @⟨_, _, _, _, hj, _ | @⟨_, _, _, _, hj', _ | _⟩⟩, hsum⟩ := kind?_op.1 hyz
        cases hj.symm.trans hy
        cases hj'.symm.trans hz
        exact kind?_op.2 ⟨[k, k], .cons hx (.cons hy .nil), by rw [hp', ← ho', hsum]⟩
      have hlike : ∀ {q : Operator} {v w : Tree}, v.kind? = some k → w.kind? = some k →
          (Tree.node (.op q) [v, w]).hasLikeOperands = true := by
        intro q v w hv hw
        rw [hasLikeOperands_pair hv hw]
        exact beq_self_eq_true k
      refine isEven_node.2 ⟨?_, fun v hv => ?_⟩
      · rw [isEvenPart_of_kind? hku hnumber]
        exact hlike hxy hz
      · rcases List.mem_pair.1 hv with rfl | rfl
        · refine isEven_node.2 ⟨?_, fun v hv => ?_⟩
          · rw [isEvenPart_of_kind? hxy hnumber]
            exact hlike hx hy
          · rcases List.mem_pair.1 hv with rfl | rfl
            · exact ht.of_mem List.mem_cons_self
            · exact hyzeven.of_mem List.mem_cons_self
        · exact hyzeven.of_mem (List.mem_cons_of_mem _ List.mem_cons_self)

end Tree

/-! ### Rules -/

namespace Rule

variable {s : Scope} {r : Rule}

/-- A rule that regroups sums or passes over them only asks for operators. -/
theorem exists_pattern_eq (hr : (r.isRegrouping || r.passesSums) = true) :
    ∃ o ps, r.pattern = .node (.op o) ps := by
  rcases Bool.or_eq_true_iff.1 hr with hr | hr
  · unfold isRegrouping at hr
    split at hr
    · exact ⟨_, _, ‹_›⟩
    · cases hr
  · unfold passesSums at hr
    split at hr
    · exact ⟨_, _, ‹_›⟩
    · cases hr

theorem find_of_not_op (hr : (r.isRegrouping || r.passesSums) = true) {v : Tree}
    (hv : ∀ o args, v ≠ .node (.op o) args) : r.pattern.find v false = none := by
  obtain ⟨o, ps, hpattern⟩ := exists_pattern_eq hr
  rw [hpattern]
  cases v with
  | leaf w => rfl
  | node h args =>
      show Pattern.matcher false _ _ _ = none
      rw [Pattern.matcher_node]
      cases h with
      | op o' => exact absurd rfl (hv o' args)
      | call name => exact if_neg (by simp [Pattern.headFits, Head.kind])
      | list => exact if_neg (by simp [Pattern.headFits, Head.kind])

/-- A rule that regroups sums applies to sums whose second operand is an operator. -/
theorem exists_operator_of_find (hr : r.isRegrouping = true) {o : Operator} {x y : Tree}
    {found : Captures} (hfind : r.pattern.find (.node (.op o) [x, y]) false = some found) :
    ∃ o' args, y = .node (.op o') args := by
  obtain ⟨serial, name, pattern, conditions, result⟩ := r
  unfold isRegrouping at hr
  split at hr
  · rename_i hpattern hresult
    cases hpattern
    obtain ⟨-, _, _, found₁, heq, -, hsecond⟩ := Pattern.matcher_pair hfind
    cases heq
    cases y with
    | leaf v => cases hsecond
    | node h args =>
        cases h with
        | op o' => exact ⟨o', args, rfl⟩
        | call name =>
            rw [Pattern.matcher_node, if_neg (by simp [Pattern.headFits, Head.kind])] at hsecond
            cases hsecond
        | list =>
            rw [Pattern.matcher_node, if_neg (by simp [Pattern.headFits, Head.kind])] at hsecond
            cases hsecond
  · cases hr

variable (hsignatures : s.signatures = Library.scope.signatures) (hnone : ∀ n, s.value? n = none)
include hsignatures hnone

/-- An even sum of lists or texts is only regrouped. -/
theorem regroups_of_isEven (hr : (r.isRegrouping || r.passesSums) = true) {v : Tree} (hv : v.IsEven)
    (hkind : v.kind? ≠ some "number") :
    (r.transform s v).Returns fun o => ∀ u, o = some u → v.Regroups u := by
  have hnothing : (∀ found, r.pattern.find v false = some found →
      (areMet s found r.conditions).Returns fun met => met = false) →
        (r.transform s v).Returns fun o => ∀ u, o = some u → v.Regroups u := by
    intro h d o d' hrun u hu
    rw [returns_none_of_areMet h d o d' hrun] at hu
    cases hu
  by_cases hop : ∃ o args, v = .node (.op o) args
  · obtain ⟨o, args, rfl⟩ := hop
    obtain ⟨k, hk⟩ := hv.exists_kind?
    have hksum : k ∈ ["string", "list"] := by
      have hmem := Tree.kind?_mem _ hk
      simpa [show k ≠ "number" from fun h => hkind (h ▸ hk)] using hmem
    obtain ⟨x, y, rfl, ho, hx, hy⟩ := hv.operands hk hksum
    by_cases hy' : ∃ o' args, y = .node (.op o') args
    · obtain ⟨o', args, rfl⟩ := hy'
      obtain ⟨y, z, rfl, ho', hy, hz⟩ := (hv.of_mem (by simp)).operands hy hksum
      refine regroups_of_transform hsignatures hnone hr (.intro ho ho' ho ho hx hy hz ?_)
      have hgroups : ∀ k ∈ ["string", "list"], Value.groups k k k = true := by decide
      exact hgroups k hksum
    · refine hnothing fun found hfind => ?_
      rcases Bool.or_eq_true_iff.1 hr with hr | hr
      · exact absurd (exists_operator_of_find hr hfind) hy'
      · exact returns_areMet_of_passesSums hsignatures hnone hr ho hy hksum hfind
  · refine hnothing fun found hfind => ?_
    rw [find_of_not_op hr fun o args heq => hop ⟨o, args, heq⟩] at hfind
    cases hfind

end Rule

/-! ### Firings -/

namespace Simplify

variable {s : Scope} {rules : List Rule} {v v' t u : Tree}

theorem FiresAt.exists_rule (h : FiresAt s rules v v' t u) :
    ∃ r ∈ rules, ∃ d d', runFrom (r.transform s v) d = (.ok (some v'), d') := by
  induction h with
  | head hrules _ _ hrun =>
      refine ⟨_, ?_, _, _, hrun⟩
      rw [hrules]
      exact List.mem_append_right _ List.mem_cons_self
  | argument _ _ _ _ ih => exact ih

variable (hsignatures : s.signatures = Library.scope.signatures) (hnone : ∀ n, s.value? n = none)
  (hrules : ∀ r ∈ rules, r ∈ Library.polynomialRules)

include hsignatures hnone hrules in
/-- Small arithmetic stays small. -/
theorem FiresAt.isSmall (h : FiresAt s rules v v' t u) (ht : t.isSmall = true) : u.isSmall = true := by
  obtain ⟨m, hm, hmax⟩ := Tree.isSmall_iff.1 ht
  have hle : ∀ k : ℕ+, k ≤ m → (k : ℕ) ≤ 2 ^ 53 := fun k hk =>
    (PNat.coe_le_coe _ _ |>.2 hk).trans hmax
  have hkeeps : ∀ r ∈ rules, r.Keeps .magnitudes (· ≤ ·) := fun r hr =>
    Rule.keeps_of_shrinks (Library.preserves_polynomialRules.2.2 r (hrules r hr))
      (Rule.isForeign_or_of_preserves (Library.preserves_polynomialRules.2.1 r (hrules r hr)))
  have hsettles : Evaluates (·.Settles .magnitudes (· ≤ ·)) rules t := by
    intro w hw r hr found hfind c hc
    obtain ⟨j, hj, hjm⟩ := evaluates_of_magnitude hrules hm w hw r hr found hfind c hc
    exact Tree.settles_of_magnitude hj (hle j hjm)
  obtain ⟨k, hk, hkm⟩ := interpret_of_rewrites (Rule.hasArithmetic_of_signatures hsignatures) hnone
    Interpretation.isFaithful_magnitudes Interpretation.comparison_magnitudes hkeeps h.rewrites hsettles hm
  exact Tree.isSmall_iff.2 ⟨k, hk, hle k hkm⟩

variable (hcalculate : CalculateSmall rules)
  (hsums : ∀ r ∈ rules, (r.isRegrouping || r.passesSums) = true)

include hsignatures hnone hsums in
/-- Whatever fires at an even part is safe. -/
theorem FiresAt.isSafe (h : FiresAt s rules v v' t u) (hv : v.IsEven) : IsSafe v v' := by
  by_cases hnumber : v.kind? = some "number"
  · exact .inl (Tree.exists_integer?_of_kind? v hnumber)
  · obtain ⟨r, hr, d, d', hrun⟩ := h.exists_rule
    exact .inr (Rule.regroups_of_isEven hsignatures hnone (hsums r hr) hv hnumber d _ d' hrun v' rfl)

include hsignatures hnone hrules hcalculate hsums

/-- A firing keeps even trees and their kinds. -/
theorem FiresAt.isEven (h : FiresAt s rules v v' t u) (ht : t.IsEven) :
    u.IsEven ∧ u.kind? = t.kind? := by
  have hv := ht.of_mem_subtrees h.mem_subtrees.1
  have hsafe := h.isSafe hsignatures hnone hsums hv
  have hinteger : ∀ n, v.integer? = some n → v'.integer? = some n := fun n hn =>
    h.integer?_eq (Rule.hasArithmetic_of_signatures hsignatures) hnone hrules
      (hcalculate v hv.staysSmall n hn) hn
  induction h with
  | head hhead hbefore hparts hrun =>
      rcases hsafe with ⟨n, hn⟩ | hregroups
      · have hkind := Tree.kind?_of_integer? v n hn
        have hsmall : v.isSmall = true := by
          rw [← Tree.isEvenPart_of_number hkind]
          exact hv v (Tree.mem_subtrees_self v)
        have hfires : FiresAt s rules v v' v v' := .head hhead hbefore hparts hrun
        have hsmall' := hfires.isSmall hsignatures hnone hrules hsmall
        exact ⟨Tree.isEven_of_isSmall (hinteger n hn) hsmall',
          (Tree.kind?_of_integer? v' n (hinteger n hn)).trans hkind.symm⟩
      · exact ⟨hregroups.isEven hv, hregroups.kind?_eq⟩
  | @argument h before after t u hfires ih =>
      obtain ⟨hu, hkind⟩ := ih (ht.of_mem (List.mem_append_right before List.mem_cons_self))
      have hkinds := Tree.kinds?_append hkind before after
      have hnode : (Tree.node h (before ++ u :: after)).kind? = _ := Tree.kind?_node_congr hkinds
      refine ⟨Tree.isEven_node.2 ⟨?_, fun w hw => ?_⟩, hnode⟩
      · have hpart := ht _ (Tree.mem_subtrees_self _)
        obtain ⟨k, hk⟩ := ht.exists_kind?
        by_cases hnumber : k = "number"
        · subst hnumber
          rw [Tree.isEvenPart_of_number hk] at hpart
          rw [Tree.isEvenPart_of_number (hnode.trans hk)]
          exact (hfires.argument h before after).isSmall hsignatures hnone hrules hpart
        · rw [Tree.isEvenPart_of_kind? hk hnumber] at hpart
          rw [Tree.isEvenPart_of_kind? (hnode.trans hk) hnumber, Tree.hasLikeOperands_congr hkinds]
          exact hpart
      · rcases List.mem_append.1 hw with hw | hw
        · exact ht.of_mem (List.mem_append_left _ hw)
        · rcases List.mem_cons.1 hw with rfl | hw
          · exact hu
          · exact ht.of_mem (List.mem_append_right before (List.mem_cons_of_mem t hw))

theorem Proceeds.isEven (h : Proceeds s rules t u) (ht : t.IsEven) : u.IsEven := by
  induction h with
  | refl => exact ht
  | tail _ hstep ih =>
      obtain ⟨_, _, hfires⟩ := hstep
      exact (hfires.isEven hsignatures hnone hrules hcalculate hsums ih).1

/-- From an even tree, every way is safe. -/
theorem isSafeWay_of_isEven (ht : t.IsEven) (u : Tree) : IsSafeWay s rules t u where
  small _ htw _ := (Proceeds.isEven hsignatures hnone hrules hcalculate hsums htw ht).staysSmall
  safe _ _ _ _ htw hfires _ :=
    hfires.isSafe hsignatures hnone hsums
      ((Proceeds.isEven hsignatures hnone hrules hcalculate hsums htw ht).of_mem_subtrees
        hfires.mem_subtrees.1)

end Simplify

end MathExpr
