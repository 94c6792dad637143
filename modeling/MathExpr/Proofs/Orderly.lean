import MathExpr.Proofs.Occurrence
import MathExpr.Proofs.Quiet
import MathExpr.Proofs.SubstitutionLemma

/-!
# Orderly trees

Two scopes *agree* (`Scope.Agree`) if they have the same functions and give the same
values to all names but some that are disputed. A tree is *orderly* (`Tree.IsOrderly`) if
it makes no random choices, in its texts no slot applies a variable as if it were a
function, and names that may be disputed are bound in time (`Tree.BindsInTime`): before
anything uses them in which they count as bound. Such a tree *avoids* the disputed names
(`Tree.Avoids`) if none occurs free in it, and so do its arguments, where the names that
have been bound are not disputed any more.

The slots of the texts in an orderly tree are read alike, whichever variables already have
values (`Scope.Extends.tree_eq`), and so the free names are the same
(`FreeNames.ofTree_congr`).
-/

namespace MathExpr

/-! ### Orderly trees -/

/-- In source text no variable is applied as if it were a function. -/
def Scope.AppliesFunctions (s : Scope) (names : List String) (source : String) : Prop :=
  ∀ ts, Token.ofSource (Text.strip source) = .ok ts →
    ∀ name, .function name ∈ ts → s.signatures name = [] → Text.lower name ∉ names

/-- A node that binds a name binds it before an argument uses it, if the name is one of `defined`. A
`map` that takes lists apart may find too few parts, and `satisfy` binds one name after the other. -/
structure Tree.BindsInTime (read : String → Outcome (Option Tree)) (defined : List String)
    (h : Head) (args : List Tree) : Prop where
  map : ∀ item names rest, h.key? = some "map" → args = item :: names :: rest → names.name? = none →
    ∀ k ∈ names.boundKeys, k ∈ defined → ¬item.FreeIn read [] k
  satisfy : ∀ names definitions rest items, h.key? = some "satisfy" →
    args = names :: definitions :: rest → definitions.elements? = some items →
      ∀ i t, items[i]? = some t → ∀ k ∈ names.boundKeys, k ∉ names.boundKeys.take i →
        k ∈ defined → ¬t.FreeIn read [] k

/-- A tree that is evaluated alike whatever values the scope already has for those of the names in
`defined` that do not occur free in it. The names in `around` are bound around it. -/
inductive Tree.IsOrderly (s : Scope) (defined : List String) : List String → Tree → Prop
  | leaf {around : List String} {v : Value} (hv : ∀ content latex, v ≠ .text content false latex) :
      IsOrderly s defined around (.leaf v)
  | text {around : List String} {content : String} {latex : Bool}
      (hread : ∀ slot ∈ (Text.Template.ofText content).slots,
        s.AppliesFunctions (around ++ defined) slot.1)
      (hslots : ∀ slot ∈ (Text.Template.ofText content).slots, ∀ t, s.tree slot.1 = .ok (some t) →
        IsOrderly s defined around t) :
      IsOrderly s defined around (.leaf (.text content false latex))
  | node {around : List String} {h : Head} {args : List Tree}
      (hchoices : ∀ name, h.name? = some name → ¬s.MakesChoices name)
      (hbinds : BindsInTime s.tree defined h args)
      (hargs : ∀ i t, args[i]? = some t → IsOrderly s defined (boundIn h args around i) t) :
      IsOrderly s defined around (.node h args)

/-! ### Agreement -/

variable {s s' s₁ s₂ : Scope} {names defined around : List String} {disputed fewer : String → Prop}

namespace Scope

/-- A scope with functions like those of another, of which none is custom, in which the same names
have values but for some of those in a list. -/
structure Extends (s : Scope) (names : List String) (s' : Scope) : Prop where
  isRegular : s'.IsRegular
  noCustom : s'.EachSignature fun _ f => ∀ parameters result t, f.body ≠ .custom parameters result t
  isEmpty : ∀ name, s'.signatures name = [] ↔ s.signatures name = []
  binds : ∀ n, Text.lower n ∉ names → s'.binds n = s.binds n

/-- Two scopes that have the same functions, except for random choices, and the same values for all
names but some of those in `defined`: those of which `disputed` holds. -/
structure Agree (s : Scope) (defined around : List String) (disputed : String → Prop)
    (s₁ s₂ : Scope) : Prop where
  left : s.Extends (around ++ defined) s₁
  right : s.Extends (around ++ defined) s₂
  signatures : ∀ name, ¬s.MakesChoices name → s₁.signatures name = s₂.signatures name
  value : ∀ n, ¬disputed (Text.lower n) → s₁.value? n = s₂.value? n
  defined_of_disputed : ∀ n, disputed n → n ∈ defined

theorem signatures_child (s : Scope) (name : String) :
    s.child.signatures name = Signature.inOrder (s.signatures name) := by
  show ((s.functions.mapEntries Signature.inOrder).find? (Text.lower name)).getD [] = _
  rw [Table.find?_mapEntries]
  unfold signatures
  cases s.functions.find? (Text.lower name) with
  | none => exact List.mergeSort_nil.symm
  | some fs => rfl

theorem signatures_child_eq_nil {name : String} : s.child.signatures name = [] ↔ s.signatures name = [] := by
  rw [signatures_child, Signature.inOrder, ← List.length_eq_zero_iff, List.length_mergeSort,
    List.length_eq_zero_iff]

theorem Extends.child (h : s.Extends names s') : s.Extends names s'.child where
  isRegular := h.isRegular.child
  noCustom := h.noCustom.child
  isEmpty name := signatures_child_eq_nil.trans (h.isEmpty name)
  binds := h.binds

theorem Extends.bind (h : s.Extends names s') {name : String}
    (hname : Text.lower name ∈ names) (v : Value) : s.Extends names (s'.bind name v) where
  isRegular := h.isRegular.bind name v
  noCustom := h.noCustom.bind name v
  isEmpty := h.isEmpty
  binds n hn := by
    have hne : Text.lower n ≠ Text.lower name := by
      intro heq
      rw [heq] at hn
      exact hn hname
    rw [← h.binds n hn, Scope.binds, value?_bind, if_neg hne]
    rfl

theorem Extends.mono (h : s.Extends names s') {more : List String} (hsub : names ⊆ more) :
    s.Extends more s' :=
  { h with binds := fun n hn => h.binds n fun hmem => hn (hsub hmem) }

/-- Only the functions and the names that have values count. -/
theorem Extends.of_functions (h : s.Extends names s') {s'' : Scope}
    (hfunctions : s''.functions = s'.functions) {more : List String}
    (hbinds : ∀ n, Text.lower n ∉ more → s''.binds n = s.binds n) : s.Extends more s'' := by
  have hsignatures : s''.signatures = s'.signatures := by
    unfold signatures
    rw [hfunctions]
  refine ⟨?_, ?_, ?_, hbinds⟩
  · unfold IsRegular EachSignature
    rw [hsignatures]
    exact h.isRegular
  · unfold EachSignature
    rw [hsignatures]
    exact h.noCustom
  · rw [hsignatures]
    exact h.isEmpty

/-- A scope that holds only built-in functions. -/
theorem HoldsBuiltIns.extends_self (h : s.HoldsBuiltIns) : s.Extends [] s where
  isRegular := h.isRegular
  noCustom := h.body_ne_custom
  isEmpty _ := Iff.rfl
  binds _ _ := rfl

/-- Around a scope that holds only built-in functions, the names in the list are all that have
values. -/
theorem HoldsBuiltIns.mem_of_binds (hs : s.HoldsBuiltIns) (h : s.Extends names s') {n : String}
    (hn : s'.binds n = true) : Text.lower n ∈ names := by
  by_contra hmem
  rw [h.binds n hmem, Scope.binds, hs.value?_eq_none] at hn
  cases hn

/-- A scope with the functions of a child of a scope that holds only built-in functions. -/
theorem HoldsBuiltIns.extends_of_functions (hs : s.HoldsBuiltIns)
    (hfunctions : s'.functions = s.child.functions)
    (hbinds : ∀ n, s'.binds n = true → Text.lower n ∈ names) : s.Extends names s' := by
  refine hs.extends_self.child.of_functions hfunctions fun n hn => ?_
  rw [Scope.binds, Scope.binds, hs.value?_eq_none]
  cases hv : s'.value? n with
  | none => rfl
  | some v => exact absurd (hbinds n (Option.isSome_iff_exists.2 ⟨v, hv⟩)) hn

namespace Agree

theorem child (h : s.Agree defined around disputed s₁ s₂) :
    s.Agree defined around disputed s₁.child s₂.child :=
  { h with
    left := h.left.child
    right := h.right.child
    signatures := fun name hname => by
      rw [signatures_child, signatures_child, h.signatures name hname]
    value := h.value }

/-- More names may be bound around. -/
theorem within (h : s.Agree defined around disputed s₁ s₂) (names : List String) :
    s.Agree defined (names ++ around) disputed s₁ s₂ :=
  { h with
    left := h.left.mono fun n hn => by simpa using .inr (by simpa using hn)
    right := h.right.mono fun n hn => by simpa using .inr (by simpa using hn) }

/-- A name that is bound to the same value is not disputed any more. -/
theorem settle (h : s.Agree defined around disputed s₁ s₂) {name : String}
    (hname : Text.lower name ∈ around) (v : Value) :
    s.Agree defined around (fun n => disputed n ∧ n ≠ Text.lower name) (s₁.bind name v)
      (s₂.bind name v) where
  left := h.left.bind (List.mem_append_left _ hname) v
  right := h.right.bind (List.mem_append_left _ hname) v
  signatures := h.signatures
  value n hn := by
    rw [value?_bind, value?_bind]
    by_cases heq : Text.lower n = Text.lower name
    · rw [if_pos heq, if_pos heq]
    · rw [if_neg heq, if_neg heq]
      exact h.value n fun hd => hn ⟨hd, heq⟩
  defined_of_disputed n hn := h.defined_of_disputed n hn.1

theorem of_imp (h : s.Agree defined around fewer s₁ s₂) (himp : ∀ n, fewer n → disputed n)
    (hdefined : ∀ n, disputed n → n ∈ defined) : s.Agree defined around disputed s₁ s₂ :=
  { h with
    value := fun n hn => h.value n fun hfewer => hn (himp _ hfewer)
    defined_of_disputed := hdefined }

/-- Names that are bound around the tree get values. -/
theorem bindAll (h : s.Agree defined around disputed s₁ s₂) {bindings : List (String × Value)}
    (hnames : ∀ b ∈ bindings, Text.lower b.1 ∈ around) :
    s.Agree defined around disputed (s₁.bindAll bindings) (s₂.bindAll bindings) := by
  induction bindings generalizing s₁ s₂ with
  | nil => exact h
  | cons b rest ih =>
      have hfirst := (h.settle (hnames b List.mem_cons_self) b.2).of_imp (fun n hn => hn.1)
        h.defined_of_disputed
      exact ih hfirst fun c hc => hnames c (List.mem_cons_of_mem b hc)

/-- A name that is not disputed has a value in both scopes or in none. -/
theorem binds_eq (h : s.Agree defined around disputed s₁ s₂) {n : String}
    (hn : ¬disputed (Text.lower n)) : s₁.binds n = s₂.binds n := by
  unfold Scope.binds
  rw [h.value n hn]

end Agree

end Scope

/-! ### Reading slots -/

namespace Tree

theorem withProducts_congr {p q : String → Bool} {ts : List Token}
    (h : ∀ name, .function name ∈ ts → p (Text.lower name) = q (Text.lower name)) :
    withProducts p ts = withProducts q ts := by
  unfold withProducts
  induction ts with
  | nil => rfl
  | cons t ts ih =>
      rw [List.flatMap_cons, List.flatMap_cons, ih fun name hname => h name (List.mem_cons_of_mem t hname)]
      cases t with
      | function name =>
          dsimp only
          rw [h name List.mem_cons_self]
      | _ => rfl

end Tree

namespace Scope

theorem readsShorter_tree (s : Scope) : FreeNames.ReadsShorter s.tree :=
  fun _ _ h => Tree.textBelow_of_ofSourceIn h

/-- A text in which none of some names is applied is read alike by scopes with functions under the same
names, whichever of the names have values. -/
theorem tree_eq_of_binds (hempty : ∀ name, s'.signatures name = [] ↔ s.signatures name = [])
    (hbinds : ∀ n, Text.lower n ∉ names → s'.binds n = s.binds n) {source : String}
    (hsource : s.AppliesFunctions names source) : s'.tree source = s.tree source := by
  unfold Scope.tree Tree.ofSourceIn
  dsimp only
  split
  · rfl
  · cases hts : Token.ofSource (Text.strip source) with
    | error e => rfl
    | ok ts =>
        have hproducts : Tree.withProducts s'.readsAsProduct ts = Tree.withProducts s.readsAsProduct ts := by
          refine Tree.withProducts_congr fun name hname => ?_
          have hsame : (s'.signatures (Text.lower name)).isEmpty =
              (s.signatures (Text.lower name)).isEmpty := by
            rw [Bool.eq_iff_iff, List.isEmpty_iff, List.isEmpty_iff, hempty]
          unfold readsAsProduct
          rw [hsame]
          by_cases hfunction : s.signatures name = []
          · have hfree := hsource ts hts name hname hfunction
            rw [← Text.lower_lower] at hfree
            rw [hbinds _ hfree]
          · have hcall : (s.signatures (Text.lower name)).isEmpty = false := by
              rw [← Bool.not_eq_true, List.isEmpty_iff]
              intro hnil
              refine hfunction ?_
              rw [← hnil, signatures, signatures, Text.lower_lower]
            rw [hcall, Bool.and_false, Bool.and_false]
        show Tree.ofTokens _ ts = Tree.ofTokens _ ts
        unfold Tree.ofTokens
        rw [hproducts]

/-- A slot in which none of the names is applied is read alike, whichever of them have values. -/
theorem Extends.tree_eq (h : s.Extends names s') {source : String}
    (hsource : s.AppliesFunctions names source) : s'.tree source = s.tree source :=
  tree_eq_of_binds h.isEmpty h.binds hsource

end Scope

/-! ### Names that are not seen -/

namespace Tree

/-- An orderly tree in which no disputed name occurs free. -/
structure Avoids (s : Scope) (defined around : List String) (disputed : String → Prop)
    (t : Tree) : Prop where
  isOrderly : t.IsOrderly s defined around
  not_disputed : ∀ n, t.FreeIn s.tree [] n → ¬disputed n

theorem append_subset_boundIn {h : Head} {args : List Tree} (i : Nat) :
    around ++ defined ⊆ boundIn h args around i ++ defined := by
  intro n hn
  rcases List.mem_append.1 hn with hn | hn
  · exact List.mem_append_left _ (mem_boundIn.2 (.inr hn))
  · exact List.mem_append_right _ hn

namespace Avoids

variable {t : Tree} {h : Head} {args : List Tree}

/-- An argument of a node, if of the names that the node binds none is disputed there that the argument
uses. -/
theorem argument (ht : (node h args).Avoids s defined around disputed) {i : Nat} {u : Tree}
    (hi : args[i]? = some u) (hfewer : ∀ n, fewer n → disputed n)
    (hnames : ∀ n ∈ boundIn h args [] i, fewer n → ¬u.FreeIn s.tree [] n) :
    u.Avoids s defined (boundIn h args around i) fewer := by
  refine ⟨?_, fun n hn hdisputed => ?_⟩
  · cases ht.isOrderly with
    | node _ _ hargs => exact hargs i u hi
  · rcases hn.of_subset (List.nil_subset (boundIn h args [] i)) with hbound | hfree
    · exact hnames n hbound hdisputed hn
    · exact ht.not_disputed n (.argument hi hfree) (hfewer n hdisputed)

/-- An argument of a node in which the node binds no names. -/
theorem outside (ht : (node h args).Avoids s defined around disputed) {i : Nat} {u : Tree}
    (hi : args[i]? = some u) (hcount : (binding h args).2 ≤ i) : u.Avoids s defined around disputed := by
  have hbound (names : List String) : boundIn h args names i = names := by
    rw [boundIn, if_neg (Nat.not_lt.2 hcount)]
  have hargument := ht.argument hi (fun _ h => h) fun n hn => by
    rw [hbound] at hn
    cases hn
  rwa [hbound] at hargument

/-- The arguments of a node that binds no names. -/
theorem of_mem (ht : (node h args).Avoids s defined around disputed) (hmap : h.key? ≠ some "map")
    (hsatisfy : h.key? ≠ some "satisfy") {u : Tree} (hu : u ∈ args) :
    u.Avoids s defined around disputed := by
  have hbinding : binding h args = ([], 0) := by
    rcases binding_cases h args with ⟨_, _, _, hkey, -⟩ | ⟨_, _, _, hkey, -⟩ | hnone
    · exact absurd hkey hmap
    · exact absurd hkey hsatisfy
    · exact hnone args rfl
  obtain ⟨i, hi⟩ := List.getElem?_of_mem hu
  exact ht.outside hi (by rw [hbinding]; exact Nat.zero_le i)

theorem slot {content : String} {latex : Bool}
    (ht : (leaf (.text content false latex)).Avoids s defined around disputed)
    {slot : String × String} (hslot : slot ∈ (Text.Template.ofText content).slots) :
    s.AppliesFunctions (around ++ defined) slot.1 ∧
      ∀ u, s.tree slot.1 = .ok (some u) → u.Avoids s defined around disputed := by
  cases ht.isOrderly with
  | leaf hv => exact absurd rfl (hv content latex)
  | text hread hslots =>
      refine ⟨hread slot hslot, fun u hu => ⟨hslots slot hslot u hu, fun n hn => ?_⟩⟩
      exact ht.not_disputed n (.slot hslot hu hn)

/-! #### Arguments of constructs that bind names -/

variable {item names definitions requirements : Tree} {rest items : List Tree}

theorem binding_map (item names : Tree) (rest : List Tree) (hkey : h.key? = some "map") :
    binding h (item :: names :: rest) = (names.boundKeys, 2) := by
  simp only [binding, hkey]

theorem binding_satisfy (names definitions : Tree) (rest : List Tree)
    (hkey : h.key? = some "satisfy") :
    binding h (names :: definitions :: rest) = (names.boundKeys, 3) := by
  simp only [binding, hkey]

/-- The item of a loop that binds one name. -/
theorem item_of_name (ht : (node h (item :: names :: rest)).Avoids s defined around disputed)
    (hkey : h.key? = some "map") {name : String} (hname : names.name? = some name) :
    item.Avoids s defined (names.boundKeys ++ around) fun n => disputed n ∧ n ≠ Text.lower name := by
  have hitem : item.Avoids s defined (boundIn h (item :: names :: rest) around 0)
      fun n => disputed n ∧ n ≠ Text.lower name := by
    refine ht.argument rfl (fun n hn => hn.1) fun n hn hfewer => ?_
    have hkeys : names.boundKeys = [Text.lower name] := by
      rw [boundKeys, key?, hname]
      rfl
    rw [boundIn, binding_map _ _ _ hkey, hkeys] at hn
    exact absurd (List.mem_singleton.1 hn) hfewer.2
  rwa [boundIn, binding_map _ _ _ hkey] at hitem

/-- The item of a loop that takes lists apart. -/
theorem item_of_list (ht : (node h (item :: names :: rest)).Avoids s defined around disputed)
    (hkey : h.key? = some "map") (hname : names.name? = none) (hdefined : ∀ n, disputed n → n ∈ defined) :
    item.Avoids s defined (names.boundKeys ++ around) disputed := by
  have hitem := ht.argument (i := 0) (u := item) rfl (fun _ hn => hn) fun n hn hdisputed => by
    rw [boundIn, binding_map _ _ _ hkey, if_pos Nat.zero_lt_two, List.append_nil] at hn
    cases ht.isOrderly with
    | node _ hbinds _ => exact hbinds.map item names rest hkey rfl hname n hn (hdefined n hdisputed)
  rwa [boundIn, binding_map _ _ _ hkey] at hitem

/-- A definition in `satisfy`, where the names before it have values. -/
theorem definition
    (ht : (node h (names :: node .list items :: rest)).Avoids s defined around disputed)
    (hkey : h.key? = some "satisfy") (hdefined : ∀ n, disputed n → n ∈ defined) {i : Nat} {t : Tree}
    (hi : items[i]? = some t) (hfewer : ∀ n, fewer n → disputed n ∧ n ∉ names.boundKeys.take i) :
    t.Avoids s defined (names.boundKeys ++ around) fewer := by
  cases ht.isOrderly with
  | node _ hbinds hargs =>
      have hlist := hargs 1 (node .list items) rfl
      rw [boundIn, binding_satisfy _ _ _ hkey] at hlist
      refine ⟨?_, fun n hn hn' => ?_⟩
      · cases hlist with
        | node _ _ hitems => exact hitems i t hi
      · obtain ⟨hdisputed, hlate⟩ := hfewer n hn'
        rcases hn.of_subset (List.nil_subset names.boundKeys) with hbound | hfree
        · exact hbinds.satisfy names _ rest items hkey rfl rfl i t hi n hbound hlate
            (hdefined n hdisputed) hn
        · refine ht.not_disputed n (.argument (i := 1) rfl ?_) hdisputed
          rw [boundIn, binding_satisfy _ _ _ hkey, if_pos (show 1 < 3 by decide), List.append_nil]
          exact .argument hi hfree

/-- A requirement in `satisfy`, where all its names have values. -/
theorem requirement
    (ht : (node h (names :: definitions :: node .list items :: rest)).Avoids s defined around disputed)
    (hkey : h.key? = some "satisfy") {t : Tree} (ht' : t ∈ items) :
    t.Avoids s defined (names.boundKeys ++ around) fun n => disputed n ∧ n ∉ names.boundKeys := by
  have hlist : (node .list items).Avoids s defined
      (boundIn h (names :: definitions :: node .list items :: rest) around 2)
      fun n => disputed n ∧ n ∉ names.boundKeys := by
    refine ht.argument rfl (fun n hn => hn.1) fun n hn hfewer => ?_
    rw [boundIn, binding_satisfy _ _ _ hkey, if_pos (show 2 < 3 by decide), List.append_nil] at hn
    exact absurd hn hfewer.2
  rw [boundIn, binding_satisfy _ _ _ hkey] at hlist
  exact hlist.of_mem (fun hkey => by cases hkey) (fun hkey => by cases hkey) ht'

end Avoids

end Tree

/-! ### Free names -/

namespace FreeNames

/-- The trees of a list have the same free names if each has. -/
theorem ofTreesWith_congr {inText inText' : List String → String → Outcome (List String)}
    {inner outer : List String} {ts : List Tree}
    (h : ∀ t ∈ ts, ∀ bound, ofTreeWith inText bound t = ofTreeWith inText' bound t) (count : Nat)
    (found : List String) :
    ofTreesWith inText inner outer count found ts = ofTreesWith inText' inner outer count found ts := by
  induction ts generalizing count found with
  | nil => rfl
  | cons t ts ih =>
      rw [ofTreesWith, ofTreesWith, h t List.mem_cons_self]
      refine bind_congr fun more => ?_
      exact ih (fun u hu => h u (List.mem_cons_of_mem t hu)) _ _

theorem ofTreeWith_congr {inText inText' : List String → String → Outcome (List String)}
    (h : s.Extends (around ++ defined) s') {t : Tree}
    (ht : t.IsOrderly s defined around)
    (htext : ∀ around outer content latex, s.Extends (around ++ defined) s' →
      Tree.IsOrderly s defined around (.leaf (.text content false latex)) →
      inText outer content = inText' outer content) (outer : List String) :
    ofTreeWith inText outer t = ofTreeWith inText' outer t := by
  induction t using Tree.ind generalizing around outer with
  | leaf v =>
      cases v with
      | text content safe latex =>
          cases safe with
          | true => rfl
          | false => exact htext around outer content latex h ht
      | _ => rfl
  | node head args ih =>
      unfold ofTreeWith
      cases ht with
      | node _ _ hargs =>
          refine ofTreesWith_congr (fun u hu outer => ?_) _ _
          obtain ⟨i, hi⟩ := List.getElem?_of_mem hu
          exact ih u hu (h.mono (Tree.append_subset_boundIn i)) (hargs i u hi) outer

theorem ofTextWith_congr (depth : Nat) {content : String} {latex : Bool}
    (h : s.Extends (around ++ defined) s')
    (ht : Tree.IsOrderly s defined around (.leaf (.text content false latex))) (outer : List String) :
    ofTextWith s'.tree depth outer content = ofTextWith s.tree depth outer content := by
  induction depth generalizing around content latex outer with
  | zero => rw [ofTextWith, ofTextWith]
  | succ depth ih =>
      cases ht with
      | leaf hv => exact absurd rfl (hv content latex)
      | text hread hslots =>
          unfold ofTextWith
          refine foldlM_congr (fun slot hslot found => ?_) []
          rw [h.tree_eq (hread slot hslot)]
          cases hu : s.tree slot.1 with
          | error e => simp only [bind, Except.bind]
          | ok o =>
              cases o with
              | none => simp only [bind, Except.bind]
              | some u =>
                  have hmore : ofTreeWith (ofTextWith s'.tree depth) outer u =
                      ofTreeWith (ofTextWith s.tree depth) outer u :=
                    ofTreeWith_congr h (hslots slot hslot u hu)
                      (fun _ outer _ _ h ht => ih h ht outer) outer
                  simp only [bind, Except.bind, hmore]

/-- The free names of an orderly tree do not depend on which variables have values. -/
theorem ofTree_congr (h : s.Extends (around ++ defined) s') {t : Tree}
    (ht : t.IsOrderly s defined around) (outer : List String) :
    ofTree s'.tree outer t = ofTree s.tree outer t :=
  ofTreeWith_congr h ht (fun _ outer _ _ h ht => ofTextWith_congr _ h ht outer) outer

end FreeNames

end MathExpr
