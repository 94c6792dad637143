import MathExpr.Proofs.Polynomials

/-!
# What trees of arithmetic mean

The meaning of a tree is the integer that it stands for when its names are assigned
integers. In this interpretation, and in all others that are faithful to numbers, trees
that are equal stand for the same, and a tree that a pattern matches stands for what the
pattern does where its names stand for what they have captured
(`Pattern.interpret_of_matcher`). Patterns that ask for something else than arithmetic
match no such tree (`Pattern.matcher_of_isForeign`).
-/

namespace MathExpr

/-- The integer that a tree stands for when its names are assigned integers, if it is made of
integers, names, sums, differences, products and signs. -/
def Tree.meaning (ρ : String → Int) (t : Tree) : Option Int := t.interpret (.integers ρ)

theorem Interpretation.isFaithful_integers (ρ : String → Int) : (integers ρ).IsFaithful where
  integer _ k h := ⟨k, h⟩
  complex _ := rfl
  name key := ⟨ρ key, rfl⟩
  eq _ _ _ _ h ha hb := Number.int?_eq_of_eq h ha hb

variable {α : Type} {I : Interpretation α}

/-! ### Equal trees -/

namespace Tree

mutual

/-- Trees that are equal stand for the same. -/
theorem interpret_eq_of_eqv (hI : I.IsFaithful) : (t u : Tree) → t.eqv u = true → ∀ a b,
    t.interpret I = some a → u.interpret I = some b → a = b
  | .leaf v, .leaf w, h, a, b, ht, hu => by
      cases v with
      | number m =>
          cases w with
          | number n => exact hI.eq m n a b h ht hu
          | _ => cases h
      | name s hints =>
          cases w with
          | name s' hints' =>
              have hname : Text.lower s = Text.lower s' :=
                beq_iff_eq.1 (Bool.and_eq_true_iff.1 h).1
              change I.name (Text.lower s) = some a at ht
              change I.name (Text.lower s') = some b at hu
              rw [hname, hu] at ht
              exact (Option.some.inj ht).symm
          | _ => cases h
      | _ => cases ht
  | .leaf v, .node h args, heq, a, b, ht, hu => by cases heq
  | .node h args, .leaf v, heq, a, b, ht, hu => by cases heq
  | .node h args, .node k args', heq, a, b, ht, hu => by
      obtain ⟨o, as, rfl, has, ha⟩ := interpret_node_eq_some.1 ht
      obtain ⟨o', bs, rfl, hbs, hb⟩ := interpret_node_eq_some.1 hu
      obtain ⟨hhead, hargs⟩ := Bool.and_eq_true_iff.1 heq
      have hsymbol : o.symbol = o'.symbol := beq_iff_eq.1 hhead
      rw [interpretAll_eq_of_eqv hI args args' hargs as bs has hbs, hsymbol, hb] at ha
      exact (Option.some.inj ha).symm

theorem interpretAll_eq_of_eqv (hI : I.IsFaithful) : (ts us : List Tree) → eqvAll ts us = true →
    ∀ as bs, interpretAll I ts = some as → interpretAll I us = some bs → as = bs
  | [], [], h, as, bs, has, hbs => by
      cases has
      cases hbs
      rfl
  | [], u :: us, h, as, bs, has, hbs => by cases h
  | t :: ts, [], h, as, bs, has, hbs => by cases h
  | t :: ts, u :: us, h, as, bs, has, hbs => by
      obtain ⟨htu, hrest⟩ := Bool.and_eq_true_iff.1 h
      obtain ⟨a, as', ha, has', rfl⟩ := interpretAll_cons_eq_some.1 has
      obtain ⟨b, bs', hb, hbs', rfl⟩ := interpretAll_cons_eq_some.1 hbs
      rw [interpret_eq_of_eqv hI t u htu a b ha hb,
        interpretAll_eq_of_eqv hI ts us hrest as' bs' has' hbs']

end

end Tree

/-! ### Captures -/

namespace Captures

/-- Whatever has been captured stands for something. -/
def Mean (I : Interpretation α) (found : Captures) : Prop :=
  ∀ k u, found.find? k = some u → ∃ a, u.interpret I = some a

/-- More has been captured, and what had been captured before still stands for the same. -/
def Extends (I : Interpretation α) (found found' : Captures) : Prop :=
  ∀ k u, found.find? k = some u →
    ∃ u', found'.find? k = some u' ∧ u'.interpret I = u.interpret I

variable {found found' found'' : Captures}

theorem Extends.refl (I : Interpretation α) (found : Captures) : found.Extends I found :=
  fun _ u hu => ⟨u, hu, rfl⟩

theorem Extends.trans (h : found.Extends I found') (h' : found'.Extends I found'') :
    found.Extends I found'' := by
  intro k u hu
  obtain ⟨u', hu', heq⟩ := h k u hu
  obtain ⟨u'', hu'', heq'⟩ := h' k u' hu'
  exact ⟨u'', hu'', heq'.trans heq⟩

/-- Where whatever is captured stands for something and all other names do, too, all names are
assigned something. -/
theorem Mean.exists_assign (hI : I.IsFaithful) (h : found.Mean I) :
    ∃ σ, I.filled found = I.assign σ := by
  have hvalue : ∀ key, ∃ a, (I.filled found).name key = some a := by
    intro key
    unfold Interpretation.filled
    dsimp only
    split
    · rename_i u hu
      exact h key u hu
    · exact hI.name key
  choose σ hσ using hvalue
  refine ⟨σ, ?_⟩
  show { I with name := (I.filled found).name } = _
  rw [funext hσ]
  rfl

/-- A tree that is captured under a name stands for what the name does from then on. -/
theorem mean_bind (hI : I.IsFaithful) {key : String} {t : Tree} {a : α} (hfound : found.Mean I)
    (ht : t.interpret I = some a) (h : found.bind key t = some found') :
    found'.Mean I ∧ found.Extends I found' ∧ found'.find? key = some t := by
  have hinsert : found' = found.insert key t ∧
      ∀ u, found.find? key = some u → u.interpret I = some a := by
    unfold bind at h
    split at h
    · rename_i u hu
      split at h
      · rename_i heqv
        cases h
        refine ⟨rfl, fun u' hu' => ?_⟩
        rw [hu] at hu'
        cases hu'
        obtain ⟨b, hb⟩ := hfound key u hu
        rw [hb, Tree.interpret_eq_of_eqv hI u t heqv b a hb ht]
      · cases h
    · rename_i hnone
      cases h
      refine ⟨rfl, fun u hu => ?_⟩
      rw [hnone] at hu
      cases hu
  obtain ⟨rfl, hsame⟩ := hinsert
  refine ⟨fun k u hu => ?_, fun k u hu => ?_, ?_⟩
  · rw [Table.find?_insert] at hu
    split at hu
    · cases hu
      exact ⟨a, ht⟩
    · exact hfound k u hu
  · rw [Table.find?_insert]
    split
    · rename_i hk
      rw [hk] at hu
      exact ⟨t, rfl, ht.trans (hsame u hu).symm⟩
    · exact ⟨u, hu, rfl⟩
  · rw [Table.find?_insert, if_pos rfl]

end Captures

/-! ### Matching -/

namespace Pattern

/-- An operator of arithmetic only stands for operators with the same symbol. -/
theorem symbol_eq_of_headFits {o o' : Operator} (h : headFits (.op o) (.op o') = true)
    (ho : o.symbol ∈ Interpretation.operators) (ho' : o'.symbol ∈ Interpretation.operators) :
    o.symbol = o'.symbol := by
  have hkey := beq_iff_eq.1 (Bool.and_eq_true_iff.1 h).2
  exact Interpretation.eq_of_lower_eq _ ho _ ho' (Option.some.inj hkey)

/-- A node is matched only if its head fits and its arguments are matched one by one. -/
theorem matcher_node {h k : Head} {ps : List Pattern} {ts : List Tree} {found : Captures} :
    matcher false (.node h ps) (.node k ts) found =
      if headFits h k then pairwise (matchers false ps) ts found else none := by
  rw [matcher]
  cases commutative? h with
  | none => rfl
  | some symbol => simp

/-- A name for a whole tree stands for what is captured under it. -/
theorem interpret_capture_of_find? {found : Captures} {key : String} {u : Tree}
    (hu : found.find? key = some u) :
    (capture .anything key).interpret (I.filled found) = u.interpret I := by
  show (I.filled found).name key = _
  simp only [Interpretation.filled, hu]

mutual

/-- A tree that a pattern of arithmetic matches stands for what the pattern does, whatever else
is captured later. -/
theorem interpret_of_matcher (hI : I.IsFaithful) : (p : Pattern) →
    ∀ t found found' a b, found.Mean I → t.interpret I = some a →
      p.interpret .polynomials = some b → matcher false p t found = some found' →
      found'.Mean I ∧ found.Extends I found' ∧
        ∀ found'', found'.Extends I found'' → p.interpret (I.filled found'') = some a
  | .capture p key, t, found, found', a, b, hfound, ht, hp, h => by
      cases p with
      | anything =>
          obtain ⟨hmean, hextends, hkey⟩ := Captures.mean_bind hI hfound ht h
          refine ⟨hmean, hextends, fun found'' h' => ?_⟩
          obtain ⟨u, hu, heq⟩ := h' key t hkey
          rw [interpret_capture_of_find? hu, heq, ht]
      | _ => cases hp
  | .literal v, t, found, found', a, b, hfound, ht, hp, h => by
      cases v with
      | number m =>
          cases t with
          | node k ts => cases h
          | leaf w =>
              cases w with
              | number n =>
                  rw [matcher] at h
                  split at h
                  · rename_i heqv
                    cases h
                    refine ⟨hfound, .refl I _, fun found'' _ => ?_⟩
                    obtain ⟨k, hk, -⟩ := Option.map_eq_some_iff.1 hp
                    obtain ⟨c, hc⟩ := hI.integer m k hk
                    rw [← hI.eq m n c a heqv hc ht]
                    exact hc
                  · cases h
              | _ => cases h
      | _ => cases hp
  | .node (.op o) ps, t, found, found', a, b, hfound, ht, hp, h => by
      cases t with
      | leaf w => cases h
      | node k ts =>
          obtain ⟨o', as, rfl, has, ha⟩ := Tree.interpret_node_eq_some.1 ht
          obtain ⟨bs, hbs, hb⟩ := Option.bind_eq_some_iff.1 hp
          rw [matcher_node] at h
          split at h
          · rename_i hfits
            have hsymbol := symbol_eq_of_headFits hfits
              (Interpretation.mem_operators_of_operator? hb)
              (Interpretation.mem_operators_of_operator? ha)
            obtain ⟨hmean, hextends, hargs⟩ :=
              interpret_of_matchers hI ps ts found found' as bs hfound has hbs h
            refine ⟨hmean, hextends, fun found'' h' => ?_⟩
            show (interpretAll _ ps).bind _ = _
            rw [hargs found'' h', hsymbol]
            exact ha
          · cases h
  | .anything, t, found, found', a, b, hfound, ht, hp, h => by cases hp
  | .anyMore, t, found, found', a, b, hfound, ht, hp, h => by cases hp
  | .ofKind _, t, found, found', a, b, hfound, ht, hp, h => by cases hp
  | .anyOf _, t, found, found', a, b, hfound, ht, hp, h => by cases hp
  | .allOf _, t, found, found', a, b, hfound, ht, hp, h => by cases hp
  | .excluding _, t, found, found', a, b, hfound, ht, hp, h => by cases hp
  | .commuting _, t, found, found', a, b, hfound, ht, hp, h => by cases hp
  | .node (.call _) _, t, found, found', a, b, hfound, ht, hp, h => by cases hp
  | .node .list _, t, found, found', a, b, hfound, ht, hp, h => by cases hp

theorem interpret_of_matchers (hI : I.IsFaithful) : (ps : List Pattern) →
    ∀ ts found found' as bs, found.Mean I → Tree.interpretAll I ts = some as →
      interpretAll .polynomials ps = some bs → pairwise (matchers false ps) ts found = some found' →
      found'.Mean I ∧ found.Extends I found' ∧
        ∀ found'', found'.Extends I found'' → interpretAll (I.filled found'') ps = some as
  | [], [], found, found', as, bs, hfound, has, hbs, h => by
      cases h
      cases has
      exact ⟨hfound, .refl I _, fun _ _ => rfl⟩
  | [], t :: ts, found, found', as, bs, hfound, has, hbs, h => by cases h
  | p :: ps, [], found, found', as, bs, hfound, has, hbs, h => by cases h
  | p :: ps, t :: ts, found, found', as, bs, hfound, has, hbs, h => by
      obtain ⟨a, as', ha, has', rfl⟩ := Tree.interpretAll_cons_eq_some.1 has
      obtain ⟨b, bs', hb, hbs', rfl⟩ := interpretAll_cons_eq_some.1 hbs
      obtain ⟨found₁, hfirst, hrest⟩ := Option.bind_eq_some_iff.1 h
      obtain ⟨hmean, hextends, hp⟩ :=
        interpret_of_matcher hI p t found found₁ a b hfound ha hb hfirst
      obtain ⟨hmean', hextends', hps⟩ :=
        interpret_of_matchers hI ps ts found₁ found' as' bs' hmean has' hbs' hrest
      refine ⟨hmean', hextends.trans hextends', fun found'' h' => ?_⟩
      refine interpretAll_cons_eq_some.2 ⟨a, as', ?_, hps found'' h', rfl⟩
      exact hp found'' (hextends'.trans h')

end

/-! ### Patterns that match no arithmetic -/

mutual

/-- Whether a pattern asks for a number that is not real, or for an operator that is not one of
arithmetic, in some place. -/
def isForeign : Pattern → Bool
  | .literal (.number n) => !(n.im == 0.0)
  | .node (.op o) ps =>
    (Interpretation.operators.all fun s => Text.lower o.symbol != Text.lower s) || anyForeign ps
  | _ => false

/-- Whether one of some patterns is foreign to arithmetic. -/
def anyForeign : List Pattern → Bool
  | [] => false
  | p :: ps => isForeign p || anyForeign ps

end

mutual

/-- A pattern that is foreign to arithmetic matches no tree of arithmetic. -/
theorem matcher_of_isForeign (hI : I.IsFaithful) : (p : Pattern) → ∀ t found a,
    p.isForeign = true → t.interpret I = some a → matcher false p t found = none
  | .literal v, t, found, c, hp, ht => by
      cases v with
      | number m =>
          cases t with
          | node k ts => rfl
          | leaf w =>
              cases w with
              | number n =>
                  rw [matcher]
                  split
                  · rename_i heqv
                    cases n with
                    | complex z =>
                        change I.number _ = some c at ht
                        rw [hI.complex] at ht
                        cases ht
                    | real y =>
                        have him : (m.im == 0.0) = true := (Bool.and_eq_true_iff.1 heqv).2
                        unfold isForeign at hp
                        rw [him] at hp
                        cases hp
                  · rfl
              | _ => rfl
      | _ => cases hp
  | .node (.op o) ps, t, found, c, hp, ht => by
      cases t with
      | leaf w => rfl
      | node k ts =>
          obtain ⟨o', as, rfl, has, hn⟩ := Tree.interpret_node_eq_some.1 ht
          rw [matcher_node]
          split
          · rename_i hfits
            unfold isForeign at hp
            rcases Bool.or_eq_true_iff.1 hp with hforeign | hforeign
            · have hkey := beq_iff_eq.1 (Bool.and_eq_true_iff.1 hfits).2
              have hne := List.all_eq_true.1 hforeign o'.symbol
                (Interpretation.mem_operators_of_operator? hn)
              exact absurd (Option.some.inj hkey) (by simpa using hne)
            · exact matchers_of_anyForeign hI ps ts found as hforeign has
          · rfl
  | .anything, t, found, c, hp, ht => by cases hp
  | .anyMore, t, found, c, hp, ht => by cases hp
  | .capture _ _, t, found, c, hp, ht => by cases hp
  | .ofKind _, t, found, c, hp, ht => by cases hp
  | .anyOf _, t, found, c, hp, ht => by cases hp
  | .allOf _, t, found, c, hp, ht => by cases hp
  | .excluding _, t, found, c, hp, ht => by cases hp
  | .commuting _, t, found, c, hp, ht => by cases hp
  | .node (.call _) _, t, found, c, hp, ht => by cases hp
  | .node .list _, t, found, c, hp, ht => by cases hp

theorem matchers_of_anyForeign (hI : I.IsFaithful) : (ps : List Pattern) → ∀ ts found as,
    anyForeign ps = true → Tree.interpretAll I ts = some as →
      pairwise (matchers false ps) ts found = none
  | [], ts, found, as, hps, has => by cases hps
  | p :: ps, [], found, as, hps, has => rfl
  | p :: ps, t :: ts, found, as, hps, has => by
      obtain ⟨a, as', ha, has', rfl⟩ := Tree.interpretAll_cons_eq_some.1 has
      show (matcher false p t found).bind _ = none
      rcases Bool.or_eq_true_iff.1 hps with hp | hps
      · rw [matcher_of_isForeign hI p t found a hp ha]
        rfl
      · rcases matcher false p t found with _ | found'
        · rfl
        · exact matchers_of_anyForeign hI ps ts found' as' hps has'

end

end Pattern

end MathExpr
