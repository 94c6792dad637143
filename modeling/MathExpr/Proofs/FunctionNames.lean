import MathExpr.Proofs.BuiltIn

/-!
# The built-in functions by name

The built-in scope is made by adding the signatures one by one. Here it is given with its functions
grouped by name (`Library.scope_eq`), so that a calculation that looks a function up does not add all
signatures first. The names are written out, with the proof that they are those of the signatures
(`Library.functionNames`).
-/

namespace MathExpr

namespace Table

variable {α : Type}

theorem eq_mk {t : Table α} {entries : List (String × α)} (h : t.entries = entries) : t = ⟨entries⟩ := by
  rw [← h]

end Table

namespace Scope

theorem keys_addSignatures (fs : List Signature) (s : Scope) :
    (fs.foldl addSignature s).functions.keys =
      fs.foldl (fun keys f => Table.addKey (Text.lower f.name) keys) s.functions.keys := by
  induction fs generalizing s with
  | nil => rfl
  | cons f rest ih =>
      rw [List.foldl_cons, ih]
      exact congrArg (fun keys => rest.foldl _ keys) (Table.keys_insert ..)

theorem eq_mk {s : Scope} {values : Table Value} {functions : Table (List Signature)} {frozen : Bool}
    (hvalues : s.values = values) (hfunctions : s.functions = functions) (hfrozen : s.frozen = frozen) :
    s = ⟨⟨values, functions, s.rulesets⟩, frozen⟩ := by
  rw [← hvalues, ← hfunctions, ← hfrozen]

end Scope

namespace Library

/-- The names of some signatures, in order of first appearance. -/
def namesOf (fs : List Signature) : List String :=
  fs.foldl (fun keys f => Table.addKey f.name keys) []

theorem nodup_namesOf (fs : List Signature) : (namesOf fs).Nodup := by
  have hfold : ∀ keys : List String, keys.Nodup →
      (fs.foldl (fun keys f => Table.addKey f.name keys) keys).Nodup := by
    induction fs with
    | nil => exact fun _ h => h
    | cons f rest ih => exact fun keys h => ih _ (Table.nodup_addKey h)
  exact hfold [] List.nodup_nil

/-- The names of the built-in functions, written out. All are in lower case. -/
structure FunctionNames where
  names : List String
  areAll : namesOf signatures = names
  areLower : (signatures.all fun f => Text.lower f.name == f.name) = true

def functionNames : FunctionNames where
  names := [
    "+u", "-u", "+", "-", "*", "/", "^", "<", ">", "<=", ">=", "=", "<>", "not", "and", "or", "xor",
    "implies", "|", "..", "#", "in", "except", "distinct", "list", "listval", "vector", "matrix",
    "rowvector", "dot", "cross", "det", "transpose", "id", "set", "union", "intersection", "abs", "arg",
    "re", "im", "conj", "sqrt", "ln", "log", "exp", "fact", "gamma", "sin", "cos", "tan", "cosec",
    "sec", "cot", "arcsin", "arccos", "arctan", "sinh", "cosh", "tanh", "cosech", "sech", "coth",
    "arcsinh", "arccosh", "arctanh", "ceil", "floor", "trunc", "fract", "degrees", "radians", "round",
    "sign", "isint", "isnan", "mod", "root", "max", "min", "perm", "comb", "gcd", "gcd_without_pi_or_i",
    "lcm", "award", "factorise", "precround", "siground", "dpformat", "sigformat", "sum", "prod",
    "sort", "deal", "shuffle", "random", "string", "latex", "capitalise", "upper", "lower", "pluralise",
    "if", "switch", "repeat", "map", "isa", "satisfy"]
  areAll := by decide +kernel
  areLower := by decide +kernel

theorem lower_name {f : Signature} (hf : f ∈ signatures) : Text.lower f.name = f.name :=
  beq_iff_eq.1 (List.all_eq_true.1 functionNames.areLower f hf)

/-- No name has to be put in lower case to find its signatures. -/
theorem filter_lower_name (name : String) :
    (signatures.filter fun f => name == Text.lower f.name) = signatures.filter fun f => name == f.name :=
  List.filter_congr fun _ hf => by rw [lower_name hf]

/-- The first signature of a name is that of a construct. -/
def startsWith (name : String) (c : Construct) : Bool :=
  match signatures.filter fun f => Text.lower name == Text.lower f.name with
  | f :: _ =>
    match f.body with
    | .construct c' => c == c'
    | _ => false
  | [] => false

theorem startsWith_name (c : Construct) : startsWith c.name c = true := by
  unfold startsWith
  rw [filter_lower_name]
  cases c <;> decide +kernel

theorem exists_signatures_of_startsWith {name : String} {c : Construct} (h : startsWith name c = true) :
    ∃ f rest, scope.signatures name = f :: rest ∧ f.body = .construct c := by
  unfold startsWith at h
  split at h
  · rename_i f rest hfs
    split at h
    · rename_i c' hbody
      rw [beq_iff_eq.1 h]
      exact ⟨f, rest, (signatures_scope name).trans hfs, hbody⟩
    · cases h
  · cases h

theorem ofName?_name (c : Construct) : Construct.ofName? (Text.lower c.name) = some c := by
  cases c <;> decide +kernel

/-- The name of a construct calls it where it has its built-in signatures. -/
theorem tree_construct (deeper : Evaluator) {s : Scope} {h : Head} {c : Construct}
    (hs : s.signatures c.name = scope.signatures c.name) (hname : h.name? = some c.name)
    (allowUnbound : Bool) (args : List Tree) :
    Evaluate.tree deeper s allowUnbound (.node h args) = c.eval s (Evaluate.suspend deeper args) := by
  obtain ⟨f, rest, hfs, hbody⟩ := exists_signatures_of_startsWith (startsWith_name c)
  have hc : h.key?.bind Construct.ofName? = some c := by
    rw [Head.key?, hname]
    exact ofName?_name c
  exact Evaluate.tree_of_construct deeper hname hc (hs.trans hfs) hbody allowUnbound args

theorem keys_scope : scope.functions.keys = functionNames.names := by
  rw [functions_scope, Scope.keys_addSignatures, ← functionNames.areAll]
  have hfold : ∀ fs : List Signature, (∀ f ∈ fs, f ∈ signatures) → ∀ keys : List String,
      fs.foldl (fun keys f => Table.addKey (Text.lower f.name) keys) keys =
        fs.foldl (fun keys f => Table.addKey f.name keys) keys := by
    intro fs hfs
    induction fs with
    | nil => exact fun _ => rfl
    | cons f rest ih =>
        intro keys
        rw [List.foldl_cons, List.foldl_cons, lower_name (hfs f List.mem_cons_self),
          ih fun g hg => hfs g (List.mem_cons_of_mem f hg)]
  exact hfold signatures (fun _ => id) []

/-- The built-in signatures, grouped by name. -/
def namedSignatures : Table (List Signature) :=
  ⟨functionNames.names.map fun name => (name, signatures.filter fun f => name == f.name)⟩

theorem exists_of_mem_names {name : String} (h : name ∈ functionNames.names) :
    ∃ f ∈ signatures, f.name = name := by
  rw [← functionNames.areAll] at h
  have hfold : ∀ (fs : List Signature) (keys : List String),
      name ∈ fs.foldl (fun keys f => Table.addKey f.name keys) keys →
        name ∈ keys ∨ ∃ f ∈ fs, f.name = name := by
    intro fs
    induction fs with
    | nil => exact fun _ h => .inl h
    | cons f rest ih =>
        intro keys h
        rcases ih _ h with h | ⟨g, hg, hname⟩
        · dsimp only [Table.addKey] at h
          split at h
          · exact .inl h
          · rcases List.mem_append.1 h with h | h
            · exact .inl h
            · exact .inr ⟨f, List.mem_cons_self, (List.mem_singleton.1 h).symm⟩
        · exact .inr ⟨g, List.mem_cons_of_mem f hg, hname⟩
  exact (hfold signatures [] h).resolve_left List.not_mem_nil

theorem functions_eq : scope.functions = namedSignatures := by
  have hnodup : scope.functions.keys.Nodup := by
    rw [keys_scope, ← functionNames.areAll]
    exact nodup_namesOf signatures
  have hfind : ∀ name ∈ scope.functions.keys,
      scope.functions.find? name = some (signatures.filter fun f => name == f.name) := by
    intro name hname
    rw [keys_scope] at hname
    obtain ⟨g, hg, rfl⟩ := exists_of_mem_names hname
    have hsignatures := signatures_scope g.name
    unfold Scope.signatures at hsignatures
    rw [lower_name hg, filter_lower_name] at hsignatures
    cases hfound : scope.functions.find? g.name with
    | none =>
        rw [hfound] at hsignatures
        have hmem : g ∈ signatures.filter fun f => g.name == f.name :=
          List.mem_filter.2 ⟨hg, beq_self_eq_true g.name⟩
        rw [← hsignatures] at hmem
        cases hmem
    | some fs =>
        rw [hfound] at hsignatures
        exact congrArg some hsignatures
  have hentries := Table.entries_eq_of_nodup hnodup hfind
  rw [keys_scope] at hentries
  exact Table.eq_mk hentries

/-- The built-in scope with its functions grouped by name. -/
def scopeByName : Scope where
  values := .empty
  functions := namedSignatures
  rulesets := scope.rulesets
  frozen := true

/-- The built-in scope is that with its functions grouped by name. -/
theorem scope_eq : scope = scopeByName :=
  Scope.eq_mk values_scope functions_eq rfl

end Library

end MathExpr
