import MathExpr.Proofs.NameTexts
import MathExpr.Proofs.TexTemplates

/-!
# TeX of trees is well bracketed

The TeX of a tree closes what it opens, if the texts and names in the tree have neither backslashes nor braces
(`Tex.closes_render`). Of a tree that is read from source text the names have none. This stays so as names are
replaced by values (`Scope.madeOf_substitute`), so that only texts matter (`Tex.wellBracketed_ofTree`).
-/

namespace MathExpr

namespace Tex

variable {s t : String} {texts : List String} {settings : Settings}

/-! ### Values -/

theorem isPlain_unescapeBraces (h : Text.IsPlain s.toList) : Text.IsPlain (Text.unescapeBraces s).toList := by
  have hsame : Text.unescapeBraces s = s := by
    unfold Text.unescapeBraces
    rw [Evaluate.unescapeBraceChars_of_no_brace h.any_isBrace, String.ofList_toList]
  rwa [hsame]

theorem fits_range {r : Range} {text : String} (h : value settings (.range r) = .ok text) : Fits text := by
  rw [value] at h
  obtain ⟨start, hstart, h⟩ := exists_of_bind_eq_ok h
  obtain ⟨stop, hstop, h⟩ := exists_of_bind_eq_ok h
  have hends := ((fits_real hstart).append (Reads.fits (s := " \\ldots ") fun _ => rfl)).append (fits_real hstop)
  dsimp only at h
  split at h
  · cases h
    exact hends
  · obtain ⟨step, hstep, h⟩ := exists_of_bind_eq_ok h
    cases h
    have hblank : Fits " \\, " := Reads.fits fun _ => rfl
    exact (((hends.append hblank).append (fits_command (by decide) (fits_of_isPlain (by decide)))).append
      hblank).append (fits_real hstep)

mutual

/-- A value closes what it opens. -/
theorem fits_value : (v : Value) → v.hasPlainTexts = true → v.hasPlainNames = true → {text : String} →
    value settings v = .ok text → Fits text
  | .number n, _, _, text, h => fits_number h
  | .text s safe latex, hs, _, text, h => by
      have hs : Text.IsPlain s.toList := of_decide_eq_true hs
      cases h
      split
      · exact fits_of_isPlain hs
      · exact fits_command (by decide) (fits_of_isPlain (isPlain_unescapeBraces hs))
  | .boolean b, _, _, text, h => by
      cases h
      exact fits_command (by decide) (by cases b <;> exact fits_of_isPlain (by decide))
  | .name s hints, _, hs, text, h => by
      cases h
      exact fits_name (of_decide_eq_true hs) hints
  | .range r, _, _, text, h => fits_range h
  | .list items, htexts, hnames, text, h => by
      obtain ⟨texts, hitems, h⟩ := exists_of_bind_eq_ok h
      cases h
      exact fits_square (fits_values items htexts hnames hitems)
  | .set items, htexts, hnames, text, h => by
      obtain ⟨texts, hitems, h⟩ := exists_of_bind_eq_ok h
      cases h
      exact fits_setBraces (fits_values items htexts hnames hitems)
  | .vector entries, _, _, text, h => by
      obtain ⟨texts, hentries, h⟩ := exists_of_bind_eq_ok h
      cases h
      refine fits_vector settings fun s hs => ?_
      obtain ⟨x, -, hx⟩ := exists_mem_of_mapM_eq_ok hentries hs
      exact fits_real hx
  | .matrix m, _, _, text, h => by
      obtain ⟨rows, hrows, h⟩ := exists_of_bind_eq_ok h
      cases h
      refine fits_matrix fun row hrow s hs => ?_
      obtain ⟨entries, -, hentries⟩ := exists_mem_of_mapM_eq_ok hrows hrow
      obtain ⟨x, -, hx⟩ := exists_mem_of_mapM_eq_ok hentries hs
      exact fits_real hx

theorem fits_values : (vs : List Value) →
    Value.allPass (fun s => decide (Text.IsPlain s.toList)) (fun _ => true) vs = true →
    Value.allPass (fun _ => true) (fun s => decide (Text.IsPlain s.toList)) vs = true →
    {texts : List String} → values settings vs = .ok texts → ∀ s ∈ texts, Fits s
  | [], _, _, texts, h => by
      cases h
      exact List.forall_mem_nil _
  | v :: vs, htexts, hnames, texts, h => by
      obtain ⟨htext, htexts⟩ := Bool.and_eq_true_iff.1 htexts
      obtain ⟨hname, hnames⟩ := Bool.and_eq_true_iff.1 hnames
      obtain ⟨s, hs, h⟩ := exists_of_bind_eq_ok h
      obtain ⟨more, hmore, h⟩ := exists_of_bind_eq_ok h
      cases h
      exact List.forall_mem_cons.2 ⟨fits_value v htext hname hs, fits_values vs htexts hnames hmore⟩

end

/-! ### Trees -/

theorem fits_operands {symbol : String} {args : List Tree} {operandTexts : List String} (h : ∀ s ∈ texts, Fits s)
    (hoperands : operands settings symbol args texts = .ok operandTexts) : ∀ s ∈ operandTexts, Fits s := by
  intro s hs
  obtain ⟨⟨⟨arg, text⟩, i⟩, hmem, hoperand⟩ := exists_mem_of_mapM_eq_ok hoperands hs
  obtain ⟨binding, -, hdone⟩ := exists_of_bind_eq_ok hoperand
  cases hdone
  exact fits_brackets_if (h text (List.of_mem_zip (List.fst_mem_of_mem_zipIdx hmem)).2)

theorem fits_power {args : List Tree} (h : ∀ s ∈ texts, Fits s) (hpower : power settings args texts = .ok t) :
    Fits t := by
  unfold power at hpower
  split at hpower
  · rename_i base _ a more
    obtain ⟨ha, hmore⟩ := List.forall_mem_cons.1 h
    obtain ⟨binding, -, hdone⟩ := exists_of_bind_eq_ok hpower
    dsimp only at hdone
    split at hdone
    · rename_i b _
      cases hdone
      exact ((fits_spaced (fits_brackets_if ha)).append (fits_of_isPlain (by decide))).append
        (fits_spaced (hmore b List.mem_cons_self))
    · cases hdone
  · cases hpower

theorem fits_product {a b : Tree} {left right : String} (hleft : Fits left) (hright : Fits right)
    (hproduct : product settings a b left right = .ok t) : Fits t := by
  have htimes : Fits (left ++ " \\times " ++ right) := (hleft.append (Reads.fits fun _ => rfl)).append hright
  unfold product at hproduct
  split at hproduct
  · cases hproduct
    exact htimes
  · obtain ⟨source, -, hproduct⟩ := exists_of_bind_eq_ok hproduct
    obtain ⟨source', -, hproduct⟩ := exists_of_bind_eq_ok hproduct
    obtain ⟨written, -, hproduct⟩ := exists_of_bind_eq_ok hproduct
    split at hproduct
    · cases hproduct
      split
      · exact (hleft.append (fits_of_isPlain (by decide))).append hright
      · exact htimes
    · cases hproduct

/-- An operator closes what it opens. -/
theorem fits_operator {symbol : String} (hsymbol : Text.IsPlain symbol.toList) {args : List Tree}
    (h : ∀ s ∈ texts, Fits s) (hoperator : operator settings symbol args texts = .ok t) : Fits t := by
  unfold operator at hoperator
  split at hoperator
  · split at hoperator
    · rename_i a b more
      cases hoperator
      obtain ⟨ha, hmore⟩ := List.forall_mem_cons.1 h
      exact ((fits_word "frac" (by decide)).append (fits_spaced ha)).append
        (fits_spaced (hmore b List.mem_cons_self))
    · cases hoperator
  split at hoperator
  · exact fits_power h hoperator
  obtain ⟨operandTexts, hoperands, hoperator⟩ := exists_of_bind_eq_ok hoperator
  have hall := fits_operands h hoperands
  split at hoperator
  · rename_i text
    cases hoperator
    have htext := hall text List.mem_cons_self
    split
    · exact htext.append (fits_of_isPlain (by decide))
    · exact (fits_signText hsymbol).append htext
  · rename_i left right a b _
    obtain ⟨hleft, hright⟩ := List.forall_mem_cons.1 hall
    have hright := hright right List.mem_cons_self
    split at hoperator
    · exact fits_product hleft hright hoperator
    · cases hoperator
      exact (hleft.append (fits_operatorText hsymbol)).append hright
  · split at hoperator
    · cases hoperator
    · cases hoperator
      exact fits_intercalate (fits_operatorText hsymbol) hall

theorem renderAll_eq_mapM (ts : List Tree) : renderAll settings ts = ts.mapM (render settings) := by
  induction ts with
  | nil => rfl
  | cons t ts ih => rw [renderAll, ih, List.mapM_cons]

/-- A tree closes what it opens. -/
theorem closes_render {t : Tree} {r : Rendered}
    (ht : t.MadeOf (fun v => v.hasPlainTexts = true ∧ v.hasPlainNames = true) Head.IsPlain)
    (h : render settings t = .ok r) : r.Closes := by
  -- The elements of list literals have to close too, because a matrix is laid out by them.
  induction t using Tree.ind generalizing r with
  | leaf v =>
      obtain ⟨htexts, hnames⟩ := Tree.madeOf_leaf.1 ht
      obtain ⟨text, htext, h⟩ := exists_of_bind_eq_ok h
      cases h
      exact ⟨fits_value v htexts hnames htext, nofun⟩
  | node head args ih =>
      obtain ⟨hhead, hargs⟩ := Tree.madeOf_node.1 ht
      obtain ⟨rendered, hrendered, h⟩ := exists_of_bind_eq_ok h
      have hall (r : Rendered) (hr : r ∈ rendered) : r.Closes := by
        rw [renderAll_eq_mapM] at hrendered
        obtain ⟨arg, harg, hr⟩ := exists_mem_of_mapM_eq_ok hrendered hr
        exact ih arg harg (hargs arg harg) hr
      have htexts : ∀ s ∈ rendered.map Rendered.text, Fits s := List.forall_mem_map.2 fun r hr => (hall r hr).text
      cases head with
      | list =>
          cases h
          refine ⟨fits_square htexts, fun elements helements => ?_⟩
          cases helements
          exact htexts
      | call name =>
          cases h
          exact ⟨fits_call settings hhead hall, nofun⟩
      | op o =>
          obtain ⟨text, htext, h⟩ := exists_of_bind_eq_ok h
          cases h
          exact ⟨fits_operator hhead htexts htext, nofun⟩

end Tex

/-! ### Replacing names by values -/

namespace Scope

variable {P : Value → Prop} {Q : Head → Prop}

theorem value?_of_without {s : Scope} {names : List String} (hnames : names.map Text.lower = names) {n : String}
    {v : Value} (h : (s.without names).value? n = some v) : s.value? n = some v := by
  have hlookup : (s.without names).lookup (Text.lower n) = some v := h
  rw [lookup_without s names hnames] at hlookup
  exact (Lookup.hide_eq_some hlookup).2

mutual

/-- A tree is made of what it was made of and of the values that replace its names. -/
theorem madeOf_substitute (s : Scope) (hs : ∀ n v, s.value? n = some v → P v) (allowUnbound : Bool) :
    (t : Tree) → t.MadeOf P Q → {u : Tree} → s.substitute allowUnbound t = .ok u → u.MadeOf P Q
  | .leaf v, ht, u, h => by
      cases v with
      | name n hints =>
          rw [substitute] at h
          split at h
          · rename_i v hv
            cases h
            exact Tree.madeOf_leaf.2 (hs n v hv)
          · split at h <;> cases h
            exact ht
      | _ =>
          cases h
          exact ht
  | .node head args, ht, u, h => by
      obtain ⟨hhead, hargs⟩ := Tree.madeOf_node.1 ht
      obtain ⟨replaced, hreplaced, h⟩ := exists_of_bind_eq_ok h
      cases h
      have hinner n v (h : (s.without (Tree.binding head args).1).value? n = some v) : P v :=
        hs n v (value?_of_without (Tree.map_lower_binding head args) h)
      exact Tree.madeOf_node.2 ⟨hhead, madeOf_substituteAll _ s hinner hs _ _ args hargs hreplaced⟩

theorem madeOf_substituteAll (inner outer : Scope) (hinner : ∀ n v, inner.value? n = some v → P v)
    (houter : ∀ n v, outer.value? n = some v → P v) (count : Nat) (allowUnbound : Bool) :
    (ts : List Tree) → (∀ t ∈ ts, t.MadeOf P Q) → {us : List Tree} →
    substituteAll inner outer count allowUnbound ts = .ok us → ∀ u ∈ us, u.MadeOf P Q
  | [], _, us, h => by
      cases h
      exact List.forall_mem_nil _
  | t :: ts, hts, us, h => by
      obtain ⟨ht, hts⟩ := List.forall_mem_cons.1 hts
      have hcons {u : Tree} (hu : u.MadeOf P Q)
          (h : (do return u :: (← substituteAll inner outer (count - 1) allowUnbound ts)) = Except.ok us) :
          ∀ u ∈ us, u.MadeOf P Q := by
        obtain ⟨more, hmore, h⟩ := exists_of_bind_eq_ok h
        cases h
        exact List.forall_mem_cons.2 ⟨hu, madeOf_substituteAll inner outer hinner houter _ _ ts hts hmore⟩
      rw [substituteAll] at h
      split at h
      · obtain ⟨u, hu, h⟩ := exists_of_bind_eq_ok h
        exact hcons (madeOf_substitute outer houter allowUnbound t ht hu) h
      · obtain ⟨u, hu, h⟩ := exists_of_bind_eq_ok h
        exact hcons (madeOf_substitute inner hinner true t ht hu) h

end

end Scope

/-! ### Trees that are read -/

/-- A tree that is read from source text, or one in which names have been replaced by values since. Of the names
in these values none has a backslash or a brace, like all names that are read. -/
inductive Tree.IsCompiled : Tree → Prop
  | read {isVariable : String → Bool} {source : String} {t : Tree}
      (h : ofSourceIn isVariable source = .ok (some t)) : IsCompiled t
  | substitute {s : Scope} {allowUnbound : Bool} {t u : Tree} (ht : IsCompiled t)
      (hs : ∀ n v, s.value? n = some v → v.hasPlainNames = true) (h : s.substitute allowUnbound t = .ok u) :
      IsCompiled u

theorem Tree.IsCompiled.madeOf {t : Tree} (h : t.IsCompiled) :
    t.MadeOf (fun v => v.hasPlainNames = true) Head.IsPlain := by
  induction h with
  | read h => exact madeOf_of_ofSourceIn h
  | substitute _ hs h ih => exact Scope.madeOf_substitute _ hs _ _ ih h

/-- The TeX of a tree whose texts have neither backslashes nor braces closes what it opens. -/
theorem Tex.wellBracketed_ofTree {t : Tree} (ht : t.IsCompiled) (htexts : t.Leaves fun v => v.hasPlainTexts = true)
    {settings : Settings} {text : String} (h : ofTree settings t = .ok text) : WellBracketed text := by
  obtain ⟨r, hr, h⟩ := exists_of_bind_eq_ok h
  cases h
  have hplain : t.MadeOf (fun v => v.hasPlainTexts = true ∧ v.hasPlainNames = true) Head.IsPlain :=
    ⟨fun v hv => ⟨htexts v hv, ht.madeOf.leaves v hv⟩, ht.madeOf.heads⟩
  exact (closes_render hplain hr).text.wellBracketed

namespace Tex

/-- A scope in which `x` is a set of a text and a name. -/
def setScope : Scope := Scope.empty.bind "x" (.set [.plainText "a", .name "y" []])

/-- The quotient of a transposed vector and a root. -/
def vectorQuotient (v : Value) : Tree :=
  .node (.op ⟨"/", .between⟩)
    [.node (.call "transpose") [.leaf (.name "alpha_n" ["vector"])], .node (.call "sqrt") [.leaf v]]

/-- The TeX of the quotient for a set. -/
def vectorQuotientText : String :=
  "\\frac\x7b \x7b \\boldsymbol\x7b\\alpha_\x7bn\x7d\x7d \x7d^\x7b\\mathrm\x7bT\x7d\x7d \x7d" ++
    "\x7b \\sqrt\x7b \\left\\\x7b \\textrm\x7ba\x7d, y \\right\\\x7d \x7d \x7d"

/-- Hints and indexes of names, fractions, roots and sets are nested in each other. -/
theorem wellBracketed_ofTree_quotient :
    setScope.tree "transpose(vector:alpha_n)/sqrt(x)" = .ok (some (vectorQuotient (.name "x" []))) ∧
      setScope.substitute true (vectorQuotient (.name "x" [])) =
        .ok (vectorQuotient (.set [.plainText "a", .name "y" []])) ∧
      ofTree {} (vectorQuotient (.set [.plainText "a", .name "y" []])) = .ok vectorQuotientText ∧
      WellBracketed vectorQuotientText := by
  have hts : Token.ofSource (Text.strip "transpose(vector:alpha_n)/sqrt(x)") =
      .ok [.function "transpose", .mark .openRound, .name "alpha_n" ["vector"], .mark .closeRound,
        .op ⟨"/", .between⟩, .function "sqrt", .mark .openRound, .name "x" [], .mark .closeRound] := by
    decide +kernel
  have hread : setScope.tree "transpose(vector:alpha_n)/sqrt(x)" =
      .ok (some (vectorQuotient (.name "x" []))) := by
    rw [Scope.tree_eq_ofTokens hts (by decide +kernel)]
    rfl
  have hvalues (n : String) (v : Value) (hn : setScope.value? n = some v) : v.hasPlainNames = true := by
    rw [setScope, Scope.value?_bind] at hn
    split at hn <;> cases hn
    decide
  have hsubstitute : setScope.substitute true (vectorQuotient (.name "x" [])) =
      .ok (vectorQuotient (.set [.plainText "a", .name "y" []])) := by
    rfl
  have htexts : (vectorQuotient (.set [.plainText "a", .name "y" []])).Leaves fun v => v.hasPlainTexts = true := by
    simp only [vectorQuotient, Tree.leaves_node, List.forall_mem_cons, Tree.leaves_leaf, List.not_mem_nil,
      false_implies, implies_true, and_true]
    decide
  have htext : ofTree {} (vectorQuotient (.set [.plainText "a", .name "y" []])) = .ok vectorQuotientText := by
    decide +kernel
  exact ⟨hread, hsubstitute, htext,
    wellBracketed_ofTree (.substitute (.read hread) hvalues hsubstitute) htexts htext⟩

end Tex

end MathExpr
