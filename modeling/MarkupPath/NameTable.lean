/-!
# Name tables

A table from names to values that remembers the order in which the names first
came. Writing a name again replaces its value in place. The table is a list of
entries with distinct names, so equal tables answer alike, and
`NameTable.names_insert` says what a write does to the names.
-/

namespace MarkupPath

namespace NameTable

def write {Value : Type} (name : String) (value : Value) :
    List (String × Value) → List (String × Value)
  | [] => [(name, value)]
  | entry :: rest =>
      if entry.1 = name then (name, value) :: rest else entry :: write name value rest

theorem names_write {Value : Type} (name : String) (value : Value)
    (entries : List (String × Value)) :
    (write name value entries).map Prod.fst =
      if name ∈ entries.map Prod.fst then entries.map Prod.fst
      else entries.map Prod.fst ++ [name] := by
  induction entries with
  | nil => simp [write]
  | cons entry rest ih =>
      unfold write
      split
      next found => simp [found]
      next different =>
        have different' : name ≠ entry.1 := fun equal => different equal.symm
        simp only [List.map_cons, ih, List.mem_cons, different', false_or]
        split <;> simp_all

theorem nodup_names_write {Value : Type} (name : String) (value : Value)
    {entries : List (String × Value)} (distinct : (entries.map Prod.fst).Nodup) :
    ((write name value entries).map Prod.fst).Nodup := by
  rw [names_write]
  split
  next => exact distinct
  next absent =>
    rw [List.nodup_append]
    refine ⟨distinct, by simp, ?_⟩
    intro other otherMem last lastMem equal
    simp only [List.mem_singleton] at lastMem
    exact absent (lastMem ▸ equal ▸ otherMem)

end NameTable

/-- Values under distinct names, in the order in which the names first came. -/
structure NameTable (Value : Type) where
  entries : List (String × Value)
  distinct : (entries.map Prod.fst).Nodup
deriving DecidableEq, Repr

namespace NameTable

variable {Value : Type}

def empty : NameTable Value := ⟨[], by simp⟩

/-- Sets the value of a name, in place if the name is there and at the end otherwise. -/
def insert (table : NameTable Value) (name : String) (value : Value) : NameTable Value :=
  ⟨write name value table.entries, nodup_names_write name value table.distinct⟩

def ofPairs (pairs : List (String × Value)) : NameTable Value :=
  pairs.foldl (fun table pair => table.insert pair.1 pair.2) empty

def get? (table : NameTable Value) (name : String) : Option Value :=
  (table.entries.find? (·.1 = name)).map Prod.snd

def names (table : NameTable Value) : List String :=
  table.entries.map Prod.fst

def size (table : NameTable Value) : Nat :=
  table.entries.length

def isEmpty (table : NameTable Value) : Bool :=
  table.entries.isEmpty

theorem names_insert (table : NameTable Value) (name : String) (value : Value) :
    (table.insert name value).names =
      if name ∈ table.names then table.names else table.names ++ [name] :=
  names_write name value table.entries

@[simp]
theorem get?_empty (name : String) : (empty : NameTable Value).get? name = none :=
  rfl

theorem get?_insert (table : NameTable Value) (name other : String) (value : Value) :
    (table.insert name value).get? other =
      if other = name then some value else table.get? other := by
  simp only [get?, insert]
  induction table.entries with
  | nil => by_cases equal : other = name <;> simp [write, equal, eq_comm]
  | cons entry rest ih =>
      unfold write
      split
      next found =>
        by_cases equal : other = name
        · simp [equal]
        · have different : ¬name = other := fun same => equal same.symm
          simp [equal, different, found]
      next different =>
        by_cases here : entry.1 = other
        · have other_ne : ¬other = name := fun same => different (here.trans same)
          simp [here, other_ne]
        · simpa [here] using ih

end NameTable

end MarkupPath
