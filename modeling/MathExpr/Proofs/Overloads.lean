import MathExpr.Proofs.Calculation
import MathExpr.Proofs.Contents
import MathExpr.Proofs.FunctionNames

/-!
# Sums of lists and texts

Of the operators of arithmetic only `+` takes operands that are not all numbers, if they
are integers, texts and lists (`Evaluate.plus_of_dispatch`): lists are appended to or
joined, and everything else is joined with a text. The kind of the first operand and, if
that is no list, of the second decides which, so that it depends on the kinds of three
operands whether they may be grouped in either way (`Value.plus_assoc`).
-/

namespace MathExpr

open MathExpr.Action (runFrom)

namespace Library

/-- The first built-in signature of an operator that takes arguments of some kinds stands for this. -/
def body? (symbol : String) (kinds : List String) : Option Body :=
  ((signatures.filter fun f => Text.lower symbol == Text.lower f.name).find? fun f =>
    ArgumentType.fit f.arguments kinds).map Signature.body

/-- What a sum of values of some kinds is, if not both are numbers. -/
def sum? : String → String → Option Primitive
  | "list", "list" => some .add
  | "list", _ => some .append
  | "string", _ => some .join
  | _, "string" => some .join
  | _, _ => none

/-- A sum appends two lists, or one more element to a list, or it joins its operands. -/
theorem sum?_cases {j k : String} {p : Primitive} (h : sum? j k = some p) :
    (j = "list" ∧ k = "list" ∧ p = .add) ∨ (j = "list" ∧ k ≠ "list" ∧ p = .append) ∨ p = .join := by
  unfold sum? at h
  split at h <;> simp_all

theorem sum?_list {k : String} (h : k ≠ "list") : sum? "list" k = some .append := by
  unfold sum?
  split <;> simp_all

theorem sum?_string_left {j : String} (k : String) (h : j = "string") : sum? j k = some .join := by
  subst h
  rfl

theorem sum?_string_right {j k : String} (hj : j ≠ "list") (h : k = "string") :
    sum? j k = some .join := by
  subst h
  unfold sum?
  split <;> simp_all

/-- What an operator stands for, if not all of its operands are numbers. -/
def overload? (symbol : String) : List String → Option Primitive
  | [j, k] => if symbol = "+" then sum? j k else none
  | _ => none

/-- Whether the built-in signature of an operator stands for what the table says. -/
def hasOverload (symbol : String) (kinds : List String) : Bool :=
  match overload? symbol kinds, body? symbol kinds with
  | some p, some (.builtin q) => p == q
  | none, none => true
  | _, _ => false

theorem hasArithmetic : scope.HasArithmetic := fun _ _ => List.prefix_rfl

/-- The kinds of one or two values that are integers, texts and lists. -/
def operandKinds : List (List String) :=
  let kinds := ["number", "string", "list"]
  kinds.flatMap fun j => [j] :: kinds.map fun k => [j, k]

theorem body?_eq_overload? {symbol : String} (hsymbol : symbol ∈ Interpretation.operators)
    {kinds : List String} (hkinds : kinds ∈ operandKinds) (hmixed : ∃ k ∈ kinds, k ≠ "number") :
    body? symbol kinds = (overload? symbol kinds).map .builtin := by
  have hall : (Interpretation.operators.all fun symbol =>
      (operandKinds.filter fun kinds => kinds.any (· != "number")).all (hasOverload symbol)) = true := by
    unfold hasOverload body?
    simp only [filter_lower_name]
    decide +kernel
  obtain ⟨k, hk, hne⟩ := hmixed
  have hmixed : kinds.any (· != "number") = true := List.any_eq_true.2 ⟨k, hk, bne_iff_ne.2 hne⟩
  have hbody := List.all_eq_true.1 (List.all_eq_true.1 hall symbol hsymbol) kinds
    (List.mem_filter.2 ⟨hkinds, hmixed⟩)
  unfold hasOverload at hbody
  split at hbody
  · rename_i p q hp hq
    rw [hp, hq, beq_iff_eq.1 hbody]
    rfl
  · rename_i hp hq
    rw [hp, hq]
    rfl
  · cases hbody

end Library

namespace Evaluate

variable {deeper : Evaluator} {h : Head} {symbol : String} {args : List Value}

/-- Where the built-in signatures of a name come first, a call has the value that the first of them that fits
stands for. -/
theorem dispatch_of_isPrefix {s : Scope} (hs : Library.scope.signatures symbol <+: s.signatures symbol)
    {p : Primitive} (hbody : Library.body? symbol (args.map Value.kind) = some (.builtin p)) :
    dispatch deeper s h symbol args = p.apply args := by
  obtain ⟨f, hfind, hbuiltin⟩ := Option.map_eq_some_iff.1 hbody
  obtain ⟨more, hmore⟩ := hs
  have htakes : (s.signatures symbol).find? (fun f => f.takes args) = some f := by
    unfold Signature.takes
    rw [← hmore, List.find?_append, Library.signatures_scope, hfind]
    rfl
  unfold dispatch
  cases hfs : s.signatures symbol with
  | nil =>
      rw [hfs] at htakes
      cases htakes
  | cons g gs =>
      rw [hfs] at htakes
      simp only [htakes]
      unfold invoke
      rw [hbuiltin]

/-- The built-in operators evaluate to what their signatures stand for. -/
theorem dispatch_of_body? {s : Scope} (hs : s.HasArithmetic) (hsymbol : symbol ∈ Interpretation.operators)
    {p : Primitive} (hbody : Library.body? symbol (args.map Value.kind) = some (.builtin p)) :
    dispatch deeper s h symbol args = p.apply args :=
  dispatch_of_isPrefix (hs symbol hsymbol) hbody

/-- Where no signature takes the operands, there is no value. -/
theorem returns_dispatch_of_none {s : Scope} (hs : s.signatures symbol = Library.scope.signatures symbol)
    (hbody : Library.body? symbol (args.map Value.kind) = none) :
    (dispatch deeper s h symbol args).Returns fun _ => False := by
  have htakes : (s.signatures symbol).find? (fun f => f.takes args) = none := by
    rw [hs, Library.signatures_scope]
    exact Option.map_eq_none_iff.1 hbody
  intro d a d' hrun
  unfold dispatch at hrun
  split at hrun
  · cases hrun
  · rw [htakes] at hrun
    cases hrun

end Evaluate

/-! ### Sums -/

namespace Value

/-- The sum of two values of which not both are numbers. -/
def plus (v w : Value) : Outcome Value :=
  match Library.sum? v.kind w.kind with
  | some p => p.applyPure [v, w]
  | none => .error (.error (Evaluate.noFit "+" [v, w]))

/-- A sum with a text is both operands joined. -/
theorem join_eq_ok {v w a : Value} :
    Primitive.join.applyPure [v, w] = .ok a ↔
      ∃ s t, Primitive.asText v = .ok s ∧ Primitive.asText w = .ok t ∧ a = .plainText (s ++ t) := by
  have hjoin : Primitive.join.applyPure [v, w] = (do
      let s ← (liftM (Primitive.asText v) : Outcome String)
      return .plainText (s ++ (← (liftM (Primitive.asText w) : Outcome String)))) := rfl
  rw [hjoin]
  rcases Primitive.asText v with f | s <;> rcases Primitive.asText w with g | t
  · exact ⟨fun h => (nomatch h), fun ⟨_, _, hs, _⟩ => (nomatch hs)⟩
  · exact ⟨fun h => (nomatch h), fun ⟨_, _, hs, _⟩ => (nomatch hs)⟩
  · exact ⟨fun h => (nomatch h), fun ⟨_, _, _, ht, _⟩ => (nomatch ht)⟩
  · constructor
    · intro h
      cases h
      exact ⟨s, t, rfl, rfl, rfl⟩
    · rintro ⟨_, _, hs, ht, rfl⟩
      cases hs
      cases ht
      rfl

theorem exists_list_of_kind {v : Value} (h : v.kind = "list") : ∃ vs, v = .list vs := by
  cases v with
  | list vs => exact ⟨vs, rfl⟩
  | _ => simp [kind] at h

theorem plus_eq_ok {v w a : Value} :
    v.plus w = .ok a ↔ ∃ p, Library.sum? v.kind w.kind = some p ∧ p.applyPure [v, w] = .ok a := by
  unfold plus
  cases Library.sum? v.kind w.kind with
  | none => exact ⟨fun h => (nomatch h), fun ⟨_, hp, _⟩ => (nomatch hp)⟩
  | some p => exact ⟨fun h => ⟨p, rfl, h⟩, fun ⟨_, hp, h⟩ => Option.some.inj hp ▸ h⟩

theorem plus_list {vs : List Value} {w : Value} (hw : w.kind ≠ "list") :
    (Value.list vs).plus w = .ok (.list (vs ++ [w])) :=
  plus_eq_ok.2 ⟨.append, Library.sum?_list hw, rfl⟩

theorem plus_of_join {v w : Value} (h : Library.sum? v.kind w.kind = some .join) :
    v.plus w = Primitive.join.applyPure [v, w] := by
  unfold plus
  rw [h]

/-- A sum is two lists, a list and one more element, or both operands joined. -/
theorem plus_cases {v w a : Value} (h : v.plus w = .ok a) :
    (∃ vs ws, v = .list vs ∧ w = .list ws ∧ a = .list (vs ++ ws)) ∨
      (∃ vs, v = .list vs ∧ w.kind ≠ "list" ∧ a = .list (vs ++ [w])) ∨
        Library.sum? v.kind w.kind = some .join ∧ Primitive.join.applyPure [v, w] = .ok a := by
  obtain ⟨p, hp, ha⟩ := plus_eq_ok.1 h
  rcases Library.sum?_cases hp with ⟨hv, hw, rfl⟩ | ⟨hv, hw, rfl⟩ | rfl
  · obtain ⟨vs, rfl⟩ := exists_list_of_kind hv
    obtain ⟨ws, rfl⟩ := exists_list_of_kind hw
    cases ha
    exact .inl ⟨vs, ws, rfl, rfl, rfl⟩
  · obtain ⟨vs, rfl⟩ := exists_list_of_kind hv
    cases ha
    exact .inr (.inl ⟨vs, rfl, hw, rfl⟩)
  · exact .inr (.inr ⟨hp, ha⟩)

/-- Sums of values that are made of the same are made of the same, and are no numbers. -/
theorem plus_congr {v v' w w' a : Value} (hv : SameContent v v') (hw : SameContent w w')
    (h : v.plus w = .ok a) : ∃ b, v'.plus w' = .ok b ∧ SameContent a b ∧ a.kind ≠ "number" := by
  obtain ⟨c, hv, hv'⟩ := hv
  obtain ⟨d, hw, hw'⟩ := hw
  have hnumber : "list" ≠ "number" := by decide
  have hnumber' : "string" ≠ "number" := by decide
  rcases plus_cases h with ⟨vs, ws, rfl, rfl, rfl⟩ | ⟨vs, rfl, hkind, rfl⟩ | ⟨hsum, hjoin⟩
  · obtain ⟨cs, hvs, rfl⟩ := Option.map_eq_some_iff.1 hv
    obtain ⟨ds, hws, rfl⟩ := Option.map_eq_some_iff.1 hw
    obtain ⟨vs', rfl, hvs'⟩ := content?_eq_list hv'
    obtain ⟨ws', rfl, hws'⟩ := content?_eq_list hw'
    refine ⟨.list (vs' ++ ws'), rfl, ⟨.list (cs ++ ds), ?_, ?_⟩, hnumber⟩
    · exact congrArg (Option.map _) (contents?_append hvs hws)
    · exact congrArg (Option.map _) (contents?_append hvs' hws')
  · obtain ⟨cs, hvs, rfl⟩ := Option.map_eq_some_iff.1 hv
    obtain ⟨vs', rfl, hvs'⟩ := content?_eq_list hv'
    have hkind' : w'.kind ≠ "list" := by rwa [kind_of_content? hw', ← kind_of_content? hw]
    have hone : contents? [w] = some [d] := contents?_cons_eq_some.2 ⟨d, [], hw, rfl, rfl⟩
    have hone' : contents? [w'] = some [d] := contents?_cons_eq_some.2 ⟨d, [], hw', rfl, rfl⟩
    refine ⟨.list (vs' ++ [w']), plus_list hkind', ⟨.list (cs ++ [d]), ?_, ?_⟩, hnumber⟩
    · exact congrArg (Option.map _) (contents?_append hvs hone)
    · exact congrArg (Option.map _) (contents?_append hvs' hone')
  · obtain ⟨s, t, hs, ht, rfl⟩ := join_eq_ok.1 hjoin
    have hsum' : Library.sum? v'.kind w'.kind = some .join := by
      rwa [kind_of_content? hv', kind_of_content? hw', ← kind_of_content? hv, ← kind_of_content? hw]
    rw [SameContent.asText_eq ⟨c, hv, hv'⟩] at hs
    rw [SameContent.asText_eq ⟨d, hw, hw'⟩] at ht
    refine ⟨.plainText (s ++ t), ?_, ⟨.text (s ++ t), rfl, rfl⟩, hnumber'⟩
    rw [plus_of_join hsum']
    exact join_eq_ok.2 ⟨s, t, hs, ht, rfl⟩

/-- Whether operands of some kinds may be grouped in either way, if not all are numbers: the first two
are lists, or the second is a text and the first no list, or the second is a number between texts. -/
def groups : String → String → String → Bool
  | "list", "list", _ => true
  | "number", "string", _ => true
  | "string", "string", _ => true
  | "string", "number", "string" => true
  | _, _, _ => false

theorem groups_cases {j k l : String} (h : groups j k l = true) :
    (j = "list" ∧ k = "list") ∨ (j ≠ "list" ∧ k = "string") ∨
      (j = "string" ∧ k = "number" ∧ l = "string") := by
  unfold groups at h
  split at h
  · exact .inl ⟨rfl, rfl⟩
  · exact .inr (.inl ⟨by decide, rfl⟩)
  · exact .inr (.inl ⟨by decide, rfl⟩)
  · exact .inr (.inr ⟨rfl, rfl, rfl⟩)
  · cases h

theorem not_numbers_of_groups {j k l : String} (h : groups j k l = true) :
    ¬(j = "number" ∧ k = "number") ∧ ¬(k = "number" ∧ l = "number") := by
  unfold groups at h
  split at h <;> simp_all

/-- Joining is associative, if the operands in the middle are texts. -/
theorem join_assoc {u v w s a : Value} (hs : Primitive.join.applyPure [v, w] = .ok s)
    (ha : Primitive.join.applyPure [u, s] = .ok a) :
    ∃ r, Primitive.join.applyPure [u, v] = .ok r ∧ r.kind = "string" ∧
      Primitive.join.applyPure [r, w] = .ok a := by
  obtain ⟨tv, tw, hv, hw, rfl⟩ := join_eq_ok.1 hs
  obtain ⟨tu, tvw, hu, hvw, rfl⟩ := join_eq_ok.1 ha
  cases hvw
  refine ⟨.plainText (tu ++ tv), join_eq_ok.2 ⟨tu, tv, hu, hv, rfl⟩, rfl, ?_⟩
  exact join_eq_ok.2 ⟨tu ++ tv, tw, rfl, hw, congrArg plainText (String.append_assoc).symm⟩

/-- Sums may be grouped in either way if the kinds of their operands allow it. -/
theorem plus_assoc {u v w s a : Value} {b c d : Content} (hu : u.content? = some b)
    (hv : v.content? = some c) (hw : w.content? = some d)
    (hgroups : groups u.kind v.kind w.kind = true) (hs : v.plus w = .ok s) (ha : u.plus s = .ok a) :
    ∃ r, u.plus v = .ok r ∧ r.plus w = .ok a := by
  rcases groups_cases hgroups with ⟨hul, hvl⟩ | ⟨hul, hvt⟩ | ⟨hut, hvn, hwt⟩
  · obtain ⟨us, rfl⟩ := exists_list_of_kind hul
    obtain ⟨vs, rfl⟩ := exists_list_of_kind hvl
    refine ⟨.list (us ++ vs), rfl, ?_⟩
    rcases plus_cases hs with ⟨_, ws, heq, rfl, rfl⟩ | ⟨_, heq, hkind, rfl⟩ | ⟨hsum, -⟩
    · cases heq
      cases ha
      exact congrArg (fun l => Except.ok (Value.list l)) (List.append_assoc us vs ws)
    · cases heq
      cases ha
      rw [plus_list hkind]
      exact congrArg (fun l => Except.ok (Value.list l)) (List.append_assoc us vs [w])
    · rw [kind, kind_of_content? hw] at hsum
      cases d <;> cases hsum
  · rw [plus_of_join (Library.sum?_string_left _ hvt)] at hs
    obtain ⟨_, _, -, -, rfl⟩ := join_eq_ok.1 hs
    rw [plus_of_join (Library.sum?_string_right hul rfl)] at ha
    obtain ⟨r, hr, hrt, hjoin⟩ := join_assoc hs ha
    exact ⟨r, (plus_of_join (Library.sum?_string_right hul hvt)).trans hr,
      (plus_of_join (Library.sum?_string_left _ hrt)).trans hjoin⟩
  · have hvl : v.kind ≠ "list" := by
      rw [hvn]
      decide
    rw [plus_of_join (Library.sum?_string_right hvl hwt)] at hs
    rw [plus_of_join (Library.sum?_string_left _ hut)] at ha
    obtain ⟨r, hr, hrt, hjoin⟩ := join_assoc hs ha
    exact ⟨r, (plus_of_join (Library.sum?_string_left _ hut)).trans hr,
      (plus_of_join (Library.sum?_string_left _ hrt)).trans hjoin⟩

end Value

namespace Evaluate

open Value (contents?)

variable {deeper : Evaluator} {h : Head} {symbol : String}

theorem apply_of_sum? {j k : String} {p : Primitive} (hp : Library.sum? j k = some p)
    (args : List Value) : p.apply args = Action.ofOutcome (p.applyPure args) := by
  unfold Library.sum? at hp
  split at hp <;> cases hp <;> rfl

theorem mem_operandKinds {vs : List Value} {cs : List Content} (hcs : contents? vs = some cs)
    (hlength : vs.length = 1 ∨ vs.length = 2) : vs.map Value.kind ∈ Library.operandKinds := by
  have hkind : ∀ c : Content, c.kind ∈ ["number", "string", "list"] := by
    intro c
    cases c <;> simp [Content.kind]
  have hmem : ∀ l : List String, (∀ k ∈ l, k ∈ ["number", "string", "list"]) →
      l.length = 1 ∨ l.length = 2 → l ∈ Library.operandKinds := by
    intro l hl hlength
    refine List.mem_flatMap.2 ?_
    match l with
    | [] => simp at hlength
    | [j] => exact ⟨j, hl j List.mem_cons_self, List.mem_cons_self⟩
    | [j, k] =>
        refine ⟨j, hl j List.mem_cons_self, List.mem_cons_of_mem _ (List.mem_map.2 ⟨k, ?_, rfl⟩)⟩
        exact hl k (List.mem_cons_of_mem j List.mem_cons_self)
    | _ :: _ :: _ :: _ => simp at hlength
  refine hmem _ (fun k hk => ?_) (by rwa [List.length_map])
  rw [Value.kinds_of_contents? hcs] at hk
  obtain ⟨c, -, rfl⟩ := List.mem_map.1 hk
  exact hkind c

/-- The only operator with a value for operands that are not all numbers is `+`, and it is their sum. -/
theorem plus_of_dispatch (hsymbol : symbol ∈ Interpretation.operators) {vs : List Value}
    {cs : List Content} (hcs : contents? vs = some cs) (hlength : vs.length = 1 ∨ vs.length = 2)
    (hmixed : ∃ v ∈ vs, v.kind ≠ "number") {a : Value} {d d' : Draws}
    (hrun : runFrom (dispatch deeper Library.scope h symbol vs) d = (.ok a, d')) :
    symbol = "+" ∧ d' = d ∧ ∃ v w b c, vs = [v, w] ∧ v.content? = some b ∧ w.content? = some c ∧
      v.plus w = .ok a := by
  obtain ⟨v, hv, hkind⟩ := hmixed
  have hbody := Library.body?_eq_overload? hsymbol (mem_operandKinds hcs hlength)
    ⟨v.kind, List.mem_map_of_mem hv, hkind⟩
  cases hoverload : Library.overload? symbol (vs.map Value.kind) with
  | none =>
      rw [hoverload] at hbody
      exact (returns_dispatch_of_none rfl hbody d a d' hrun).elim
  | some p =>
      rw [hoverload] at hbody
      rw [dispatch_of_body? Library.hasArithmetic hsymbol hbody] at hrun
      match vs with
      | [] => cases hv
      | [v] => cases hoverload
      | [v, w] =>
          change (if symbol = "+" then Library.sum? v.kind w.kind else none) = some p at hoverload
          split_ifs at hoverload with hplus
          rw [apply_of_sum? hoverload] at hrun
          obtain ⟨b, _, hb, hcs, -⟩ := Value.contents?_cons_eq_some.1 hcs
          obtain ⟨c, _, hc, -, -⟩ := Value.contents?_cons_eq_some.1 hcs
          exact ⟨hplus, (congrArg Prod.snd hrun).symm, v, w, b, c, rfl, hb, hc,
            Value.plus_eq_ok.2 ⟨p, hoverload, congrArg Prod.fst hrun⟩⟩
      | _ :: _ :: _ :: _ => cases hoverload

/-- The operator `+` gives the sum of operands that are not both numbers. -/
theorem dispatch_sum {v w a : Value} {b c : Content} (hv : v.content? = some b)
    (hw : w.content? = some c) (hmixed : ¬(v.kind = "number" ∧ w.kind = "number")) {d d' : Draws} :
    runFrom (dispatch deeper Library.scope h "+" [v, w]) d = (.ok a, d') ↔
      v.plus w = .ok a ∧ d' = d := by
  have hplus : "+" ∈ Interpretation.operators := by decide
  have hcs : contents? [v, w] = some [b, c] :=
    Value.contents?_cons_eq_some.2 ⟨b, [c], hv, Value.contents?_cons_eq_some.2 ⟨c, [], hw, rfl, rfl⟩, rfl⟩
  constructor
  · intro hrun
    have hmixed : ∃ u ∈ [v, w], u.kind ≠ "number" := by
      by_cases hkind : v.kind = "number"
      · exact ⟨w, by simp, fun hkind' => hmixed ⟨hkind, hkind'⟩⟩
      · exact ⟨v, List.mem_cons_self, hkind⟩
    obtain ⟨-, hd, _, _, _, _, heq, -, -, ha⟩ := plus_of_dispatch hplus hcs (.inr rfl) hmixed hrun
    cases heq
    exact ⟨ha, hd⟩
  · rintro ⟨ha, rfl⟩
    have hmixed : ∃ k ∈ [v.kind, w.kind], k ≠ "number" := by
      by_cases hkind : v.kind = "number"
      · exact ⟨w.kind, by simp, fun hkind' => hmixed ⟨hkind, hkind'⟩⟩
      · exact ⟨v.kind, List.mem_cons_self, hkind⟩
    have hbody := Library.body?_eq_overload? hplus (mem_operandKinds hcs (.inr rfl)) hmixed
    have hoverload : Library.overload? "+" ([v, w].map Value.kind) = Library.sum? v.kind w.kind := rfl
    rw [hoverload] at hbody
    obtain ⟨p, hp, ha⟩ := Value.plus_eq_ok.1 ha
    rw [hp] at hbody
    rw [dispatch_of_body? Library.hasArithmetic hplus hbody, apply_of_sum? hp, ha]
    rfl

end Evaluate

end MathExpr
