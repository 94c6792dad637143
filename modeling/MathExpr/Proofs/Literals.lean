import MathExpr.Proofs.FiniteNumbers
import MathExpr.Proofs.Leaves
import MathExpr.Proofs.Renaming

/-!
# Literals

The leaves of a tree that is read from source text are literals (`Scope.leaves_isLiteral_of_tree`): names,
plain texts, booleans, and numbers among which no two are equal but not the same, as the two zeros are.

So trees that are read from source text and are equal differ in the case of names only
(`Tree.renamed_of_eqv`).
-/

namespace MathExpr

/-! ### Numbers in source text -/

namespace Real

/-- A number that is written with digits is not the negative zero. -/
theorem ofDigits_ne (whole fraction : List Char) (exponent : Int) :
    ofDigits whole fraction exponent ≠ -0.0 := by
  intro h
  have hsign : sign? (ofDigits whole fraction exponent).toModel.unpack = some .positive := by
    unfold ofDigits Decimal.toFloat
    dsimp only
    rw [if_neg (Int.not_lt.2 (Int.natCast_nonneg _))]
    exact sign?_ofScientific ..
  rw [h, show sign? (-0.0 : Float).toModel.unpack = some .negative from rfl] at hsign
  cases hsign

/-- Equal numbers are the same unless one is the negative zero. -/
theorem eq_of_beq {x y : Float} (hx : x ≠ -0.0) (hy : y ≠ -0.0) (h : (x == y) = true) : x = y := by
  obtain ⟨-, -, heq | ⟨-, hzero⟩ | ⟨hzero, -⟩⟩ := Float.beq_iff_ne_nan_and_eq.1 h
  · exact heq
  · exact absurd hzero hy
  · exact absurd hzero hx

end Real

/-- A number that may stand in source text: the imaginary unit, or a real one that is not the negative
zero. -/
def Number.IsLiteral : Number → Prop
  | .real x => x ≠ -0.0
  | .complex z => z = Complex.i

theorem Number.eq_of_isLiteral {m n : Number} (hm : m.IsLiteral) (hn : n.IsLiteral)
    (h : m.eq n = true) : m = n := by
  obtain ⟨hre, him⟩ := Bool.and_eq_true_iff.1 h
  cases m with
  | real x =>
      cases n with
      | real y => rw [Real.eq_of_beq hm hn hre]
      | complex z =>
          cases show z = Complex.i from hn
          exact absurd him (show ¬((0.0 : Float) == 1.0) = true by decide)
  | complex z =>
      cases show z = Complex.i from hm
      cases n with
      | real y => exact absurd him (show ¬((1.0 : Float) == 0.0) = true by decide)
      | complex w => rw [show w = Complex.i from hn]

/-- The numbers that have names are literals. -/
theorem Token.isLiteral_of_constant {key : String} {n : Number} (h : constant? key = some n) :
    n.IsLiteral := by
  unfold constant? at h
  split at h <;> cases h
  case h_3 => rfl
  all_goals
    show _ ≠ _
    decide

/-! ### Leaves -/

/-- A leaf of a tree that is read from source text. -/
def Value.IsLiteral : Value → Prop
  | .number n => n.IsLiteral
  | .text _ safe latex => safe = false ∧ latex = false
  | .boolean _ => True
  | .name .. => True
  | _ => False

/-- The leaves of a tree that is read from source text are literals. -/
theorem Scope.leaves_isLiteral_of_tree {s : Scope} {source : String} {t : Tree}
    (h : s.tree source = .ok (some t)) : t.Leaves Value.IsLiteral := by
  unfold Scope.tree Tree.ofSourceIn at h
  dsimp only at h
  split at h
  · cases h
  · obtain ⟨ts, hts, htree⟩ := exists_of_bind_eq_ok h
    have hts := eq_ok_of_mapError hts
    refine Tree.leaves_of_ofTokens (fun u hu => ?_) (fun _ _ _ => trivial) htree
    cases u with
    | number n =>
        obtain ⟨l, rest, k, before, -, hrest, hn⟩ := Token.exists_of_mem_ofSource hts hu
        rcases Token.eq_of_number_mem_ofLexeme hn with ⟨x, rfl, rfl⟩ | ⟨key, hkey⟩
        · obtain ⟨whole, fraction, rfl⟩ := Lexeme.eq_ofDigits_of_recognise hrest
          exact Real.ofDigits_ne whole fraction 0
        · exact Token.isLiteral_of_constant hkey
    | text => exact ⟨rfl, rfl⟩
    | _ => trivial

/-! ### Equal trees -/

/-- Equal literals are the same, but for the case of names. -/
theorem Value.renamed_of_eqv {v w : Value} (hv : v.IsLiteral) (hw : w.IsLiteral) (h : v.eqv w = true) :
    v.Renamed .identity w := by
  cases v with
  | number m =>
      cases w with
      | number n =>
          rw [Number.eq_of_isLiteral hv hw h]
          exact .same Renaming.isIdentity_identity
      | _ => cases h
  | text s safe latex =>
      cases w with
      | text s' safe' latex' =>
          obtain ⟨rfl, rfl⟩ := hv
          obtain ⟨rfl, rfl⟩ := hw
          have h : (s == s') = true := h
          rw [beq_iff_eq.1 h]
          exact .same Renaming.isIdentity_identity
      | _ => cases h
  | boolean b =>
      cases w with
      | boolean c =>
          have h : (b == c) = true := h
          rw [beq_iff_eq.1 h]
          exact .same Renaming.isIdentity_identity
      | _ => cases h
  | name a hints =>
      cases w with
      | name b hints' =>
          have h : (Text.lower a == Text.lower b && hints == hints') = true := h
          rw [Bool.and_eq_true, beq_iff_eq] at h
          exact .name hints hints' h.1
      | _ => cases h
  | _ => exact hv.elim

theorem Head.eq_of_eqv {h k : Head} (heqv : h.eqv k = true) : h.kind = k.kind ∧ h.key? = k.key? := by
  cases h with
  | op a =>
      cases k with
      | op b =>
          have heqv : (a.symbol == b.symbol) = true := heqv
          refine ⟨rfl, ?_⟩
          show some (Text.lower a.symbol) = some (Text.lower b.symbol)
          rw [beq_iff_eq.1 heqv]
      | _ => cases heqv
  | call a =>
      cases k with
      | call b =>
          have heqv : (a == b) = true := heqv
          rw [beq_iff_eq.1 heqv]
          exact ⟨rfl, rfl⟩
      | _ => cases heqv
  | list =>
      cases k with
      | list => exact ⟨rfl, rfl⟩
      | _ => cases heqv

theorem Tree.forall₂_of_eqvAll {ts us : List Tree} (hus : ∀ u ∈ us, u.Leaves Value.IsLiteral)
    (h : eqvAll ts us = true) :
    List.Forall₂ (fun t u => t.eqv u = true ∧ u.Leaves Value.IsLiteral) ts us := by
  induction ts generalizing us with
  | nil =>
      cases us with
      | nil => exact .nil
      | cons u us => cases h
  | cons t ts ih =>
      cases us with
      | nil => cases h
      | cons u us =>
          rw [eqvAll, Bool.and_eq_true] at h
          exact .cons ⟨h.1, hus u List.mem_cons_self⟩ (ih (fun v hv => hus v (List.mem_cons_of_mem u hv)) h.2)

/-- Trees that are equal and have literals at their leaves differ in the case of names only. -/
theorem Tree.renamed_of_eqv {t u : Tree} (ht : t.Leaves Value.IsLiteral) (hu : u.Leaves Value.IsLiteral)
    (h : t.eqv u = true) : t.Renamed .identity u := by
  induction t using Tree.ind generalizing u with
  | leaf v =>
      cases u with
      | leaf w =>
          rw [eqv] at h
          exact .leaf (Value.renamed_of_eqv (leaves_leaf.1 ht) (leaves_leaf.1 hu) h)
      | node k us =>
          rw [eqv] at h
          · cases h
          all_goals intros; contradiction
  | node head ts ih =>
      cases u with
      | leaf w =>
          rw [eqv] at h
          · cases h
          all_goals intros; contradiction
      | node k us =>
          rw [eqv, Bool.and_eq_true] at h
          obtain ⟨hkind, hkey⟩ := Head.eq_of_eqv h.1
          have hargs := forall₂_of_eqvAll (leaves_node.1 hu) h.2
          refine .node hkind hkey (forall₂_of_mem hargs fun t hmem u htu => ?_)
          exact ih t hmem (leaves_node.1 ht t hmem) htu.2 htu.1

end MathExpr
