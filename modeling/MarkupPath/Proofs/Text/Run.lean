import Mathlib.Data.List.Basic

/-!
# Runs

Names, white space and the text up to a mark are all read in one way: as far as a
class of characters goes. What was read is then the longest run of the class, and
no other beginning of the text is one.
-/

namespace MarkupPath

/-- Members of a class in front of `rest`, and all that there are. -/
structure LongestRun {α : Type} (inClass : α → Bool) (run rest : List α) : Prop where
  inside : ∀ one ∈ run, inClass one = true
  stops : ∀ one, rest.head? = some one → inClass one = false

variable {α : Type} {inClass : α → Bool} {run rest other otherRest : List α}

theorem longestRun_takeWhile (inClass : α → Bool) (whole : List α) :
    LongestRun inClass (whole.takeWhile inClass) (whole.dropWhile inClass) := by
  refine ⟨fun one member => List.all_eq_true.mp List.all_takeWhile one member, ?_⟩
  intro one isHead
  have stopped := List.head?_dropWhile_not inClass whole
  rw [isHead] at stopped
  exact stopped

theorem longestRun_cons_iff {mark : α} :
    LongestRun inClass run (mark :: rest) ↔
      (∀ one ∈ run, inClass one = true) ∧ inClass mark = false := by
  constructor
  · exact fun longest => ⟨longest.inside, longest.stops mark rfl⟩
  · rintro ⟨inside, stops⟩
    refine ⟨inside, ?_⟩
    rintro one ⟨⟩
    exact stops

/-- What stands before the first mark is a run of what differs from it. -/
theorem longestRun_of_not_mem [BEq α] [LawfulBEq α] {mark : α} (absent : mark ∉ run)
    (rest : List α) : LongestRun (· != mark) run (mark :: rest) := by
  rw [longestRun_cons_iff]
  refine ⟨?_, bne_self_eq_false mark⟩
  intro one member
  rw [bne_iff_ne]
  rintro rfl
  exact absent member

namespace LongestRun

theorem takeWhile_append (longest : LongestRun inClass run rest) :
    (run ++ rest).takeWhile inClass = run := by
  rw [List.takeWhile_append_of_pos longest.inside]
  cases rest with
  | nil => simp
  | cons first rest => simp [longest.stops first rfl]

theorem dropWhile_append (longest : LongestRun inClass run rest) :
    (run ++ rest).dropWhile inClass = rest := by
  rw [List.dropWhile_append_of_pos longest.inside]
  cases rest with
  | nil => rfl
  | cons first rest => simp [longest.stops first rfl]

theorem unique (longest : LongestRun inClass run rest)
    (otherLongest : LongestRun inClass other otherRest)
    (same : run ++ rest = other ++ otherRest) : run = other ∧ rest = otherRest := by
  constructor
  · rw [← longest.takeWhile_append, same, otherLongest.takeWhile_append]
  · rw [← longest.dropWhile_append, same, otherLongest.dropWhile_append]

end LongestRun

/-- What stands before the first mark is told by the whole. -/
theorem front_eq_of_not_mem [BEq α] [LawfulBEq α] {mark : α} {front back : List α}
    (notInFront : mark ∉ front) (notInOther : mark ∉ other)
    (same : front ++ mark :: back = other ++ mark :: otherRest) : front = other :=
  ((longestRun_of_not_mem notInFront back).unique (longestRun_of_not_mem notInOther otherRest)
    same).1

end MarkupPath
