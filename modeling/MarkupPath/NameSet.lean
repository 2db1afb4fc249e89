/-!
# Name sets

Finite sets of names, such as the elements that a caller does not want to see in
paths. Only membership and size matter; the order of the list behind a set means
nothing.
-/

namespace MarkupPath

structure NameSet where
  names : List String
  distinct : names.Nodup
deriving Repr

namespace NameSet

def empty : NameSet := ⟨[], by simp⟩

def contains (set : NameSet) (name : String) : Bool :=
  set.names.contains name

def insert (set : NameSet) (name : String) : NameSet :=
  if absent : name ∈ set.names then set
  else ⟨name :: set.names, List.nodup_cons.mpr ⟨absent, set.distinct⟩⟩

def extend (set : NameSet) (names : List String) : NameSet :=
  names.foldl insert set

def ofList (names : List String) : NameSet :=
  empty.extend names

def size (set : NameSet) : Nat :=
  set.names.length

def isEmpty (set : NameSet) : Bool :=
  set.names.isEmpty

def toSortedList (set : NameSet) : List String :=
  set.names.mergeSort fun left right => left ≤ right

@[simp]
theorem mem_names_insert (set : NameSet) (added name : String) :
    name ∈ (set.insert added).names ↔ name = added ∨ name ∈ set.names := by
  unfold insert
  split
  next present => exact ⟨Or.inr, fun either => either.elim (fun equal => equal ▸ present) id⟩
  next => exact List.mem_cons

@[simp]
theorem mem_names_extend (set : NameSet) (added : List String) (name : String) :
    name ∈ (set.extend added).names ↔ name ∈ added ∨ name ∈ set.names := by
  induction added generalizing set with
  | nil => simp [extend]
  | cons first rest ih =>
      have step : set.extend (first :: rest) = (set.insert first).extend rest := rfl
      rw [step, ih, mem_names_insert, List.mem_cons, or_left_comm, or_assoc]

end NameSet

end MarkupPath
