/-!
# Tables

A table maps keys to entries and remembers the order in which the keys came. Replacing an entry leaves
its key in place.
-/

namespace MathExpr

/-- Keys with their entries, in the order in which the keys came. -/
structure Table (α : Type) where
  entries : List (String × α)

namespace Table

variable {α : Type}

/-- The table without entries. -/
def empty : Table α := ⟨[]⟩

instance : Inhabited (Table α) := ⟨empty⟩

/-- The entry of a key. -/
def find? (t : Table α) (key : String) : Option α := t.entries.lookup key

/-- Whether a key has an entry. -/
def contains (t : Table α) (key : String) : Bool := (t.find? key).isSome

/-- The keys, in order. -/
def keys (t : Table α) : List String := t.entries.map Prod.fst

/-- The entries with the one of a key replaced, or a new one at the end. -/
def insertInto (key : String) (a : α) : List (String × α) → List (String × α)
  | [] => [(key, a)]
  | (k, b) :: rest => if k = key then (key, a) :: rest else (k, b) :: insertInto key a rest

/-- The table with an entry for a key. -/
def insert (t : Table α) (key : String) (a : α) : Table α := ⟨insertInto key a t.entries⟩

/-- The table without the entry of a key. -/
def erase (t : Table α) (key : String) : Table α := ⟨t.entries.filter fun e => e.1 != key⟩

/-- The table with the entries of a list, of which later ones replace earlier ones. -/
def insertAll (t : Table α) (entries : List (String × α)) : Table α :=
  entries.foldl (fun t e => t.insert e.1 e.2) t

/-- The table of the entries of a list, of which later ones replace earlier ones. -/
def ofList (entries : List (String × α)) : Table α := empty.insertAll entries

/-- The table with each entry changed. -/
def mapEntries {β : Type} (f : α → β) (t : Table α) : Table β :=
  ⟨t.entries.map fun e => (e.1, f e.2)⟩

@[simp] theorem find?_empty (key : String) : (empty : Table α).find? key = none := rfl

theorem lookup_insertInto (key k : String) (a : α) (entries : List (String × α)) :
    (insertInto key a entries).lookup k = if k = key then some a else entries.lookup k := by
  induction entries with
  | nil =>
    by_cases h : k = key
    · simp [insertInto, h]
    · simp [insertInto, List.lookup_cons, h, beq_eq_false_iff_ne.2 h]
  | cons e rest ih =>
    obtain ⟨x, b⟩ := e
    by_cases hx : x = key
    · subst hx
      by_cases hk : k = x
      · simp [insertInto, hk]
      · simp [insertInto, List.lookup_cons, hk, beq_eq_false_iff_ne.2 hk]
    · by_cases hk : k = x
      · simp [insertInto, hx, hk]
      · simp [insertInto, List.lookup_cons, hx, beq_eq_false_iff_ne.2 hk, ih]

/-- An entry is found under its key, and the others stay as they are. -/
theorem find?_insert (t : Table α) (key k : String) (a : α) :
    (t.insert key a).find? k = if k = key then some a else t.find? k :=
  lookup_insertInto key k a t.entries

end Table

end MathExpr
