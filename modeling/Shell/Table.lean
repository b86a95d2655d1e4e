/-
Tables from names to values, in the order of the names.

The entries are kept in increasing order of their names, which is the order in which
a listing shows them. Reading a table does not rely on the order, so each operation
is described by what `get?` finds afterwards.
-/
set_option autoImplicit false

namespace Shell

/-- A table from names to values. -/
structure Table (α : Type) where
  entries : List (String × α)
  deriving Repr, DecidableEq

namespace Table

variable {α : Type}

instance : EmptyCollection (Table α) := ⟨⟨[]⟩⟩

instance : Inhabited (Table α) := ⟨∅⟩

/-- The value of a name among entries. -/
def find? (key : String) : List (String × α) → Option α
  | [] => none
  | (k, v) :: rest => if k = key then some v else find? key rest

/-- Entries with one name set to a value. -/
def put (key : String) (value : α) : List (String × α) → List (String × α)
  | [] => [(key, value)]
  | (k, v) :: rest =>
    if k = key then (key, value) :: rest
    else if key < k then (key, value) :: (k, v) :: rest
    else (k, v) :: put key value rest

/-- The value of a name. -/
def get? (t : Table α) (key : String) : Option α := find? key t.entries

def contains (t : Table α) (key : String) : Bool := (t.get? key).isSome

/-- The table with a name set to a value. -/
def insert (t : Table α) (key : String) (value : α) : Table α := ⟨put key value t.entries⟩

/-- The table without a name. -/
def erase (t : Table α) (key : String) : Table α := ⟨t.entries.filter fun e => e.1 ≠ key⟩

/-- The names in the table. -/
def keys (t : Table α) : List String := t.entries.map (·.1)

/-- The table with the given entries; of two entries with one name the later counts. -/
def ofList (entries : List (String × α)) : Table α :=
  entries.foldl (fun t e => t.insert e.1 e.2) ∅

/-! ## What `get?` finds -/

@[simp]
theorem get?_empty (key : String) : (∅ : Table α).get? key = none := rfl

theorem find?_put (key k : String) (value : α) (entries : List (String × α)) :
    find? k (put key value entries) = if key = k then some value else find? k entries := by
  induction entries with
  | nil => simp [put, find?]
  | cons e rest ih => grind [put, find?]

@[simp]
theorem get?_insert (t : Table α) (key k : String) (value : α) :
    (t.insert key value).get? k = if key = k then some value else t.get? k :=
  find?_put key k value t.entries

theorem find?_filter (key k : String) (entries : List (String × α)) :
    find? k (entries.filter fun e => e.1 ≠ key) = if key = k then none else find? k entries := by
  induction entries with
  | nil => simp [find?]
  | cons e rest ih => grind [find?]

@[simp]
theorem get?_erase (t : Table α) (key k : String) :
    (t.erase key).get? k = if key = k then none else t.get? k :=
  find?_filter key k t.entries

end Table

end Shell
