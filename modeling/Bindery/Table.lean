set_option autoImplicit false

namespace Bindery

/-- A finite map from names, in the order in which the names were first put in. -/
structure Table (α : Type) where
  entries : List (String × α) := []

namespace Table

variable {α : Type}

def empty : Table α := {}

instance : Inhabited (Table α) := ⟨empty⟩

def get? (table : Table α) (name : String) : Option α :=
  table.entries.lookup name

/-- The entries with one of them replaced, or put at the end when the name is new. -/
def put (name : String) (value : α) : List (String × α) → List (String × α)
  | [] => [(name, value)]
  | (key, old) :: rest =>
      if name == key then (key, value) :: rest else (key, old) :: put name value rest

def set (table : Table α) (name : String) (value : α) : Table α :=
  ⟨put name value table.entries⟩

/-- The table of some entries, the last of a name counting. -/
def ofList (entries : List (String × α)) : Table α :=
  entries.foldl (fun table entry => table.set entry.1 entry.2) empty

def contains (table : Table α) (name : String) : Bool :=
  (table.get? name).isSome

def names (table : Table α) : List String :=
  table.entries.map (·.1)

@[simp] theorem get?_empty (name : String) : (empty : Table α).get? name = none := rfl

theorem lookup_put (name other : String) (value : α) (entries : List (String × α)) :
    (put name value entries).lookup other =
      if other = name then some value else entries.lookup other := by
  induction entries with
  | nil =>
      by_cases same : other = name
      · simp [put, same]
      · have differ : (other == name) = false := by simpa using same
        simp [put, List.lookup_cons, same, differ]
  | cons entry rest ih =>
      obtain ⟨key, old⟩ := entry
      by_cases found : name = key
      · subst found
        by_cases same : other = name
        · simp [put, same]
        · have differ : (other == name) = false := by simpa using same
          simp [put, List.lookup_cons, same, differ]
      · by_cases here : other = key
        · subst here
          have distinct : ¬ other = name := fun h => found h.symm
          simp [put, found, distinct]
        · have differ : (other == key) = false := by simpa using here
          simp [put, List.lookup_cons, found, differ, ih]

theorem get?_set (table : Table α) (name other : String) (value : α) :
    (table.set name value).get? other = if other = name then some value else table.get? other :=
  lookup_put name other value table.entries

@[simp] theorem get?_set_self (table : Table α) (name : String) (value : α) :
    (table.set name value).get? name = some value := by
  simp [get?_set]

theorem get?_set_of_ne (table : Table α) {name other : String} (value : α) (h : other ≠ name) :
    (table.set name value).get? other = table.get? other := by
  simp [get?_set, h]

end Table

end Bindery
