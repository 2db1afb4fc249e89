import Mathlib.Data.List.Induction
import MarkupPath.Element.Ancestry
import MarkupPath.Markup.Tag

/-!
# Occurrences of tags

A list of tags is replayed under the tolerant rule of `Ancestry`, and every tag
of it is told apart from all the others by its place in the list. The replay
gives each start tag the chain of the elements around it, and a number among the
start tags of its name that were met under the same parent.

The equations for one more tag at the end of the list are what every induction
over a replay rests on. What has been said of an occurrence is not changed by
the tags after it.
-/

namespace MarkupPath

namespace Ancestry

variable {Entry : Type} [Named Entry]

/-- A closing tag leaves what is open as it was, or ends the innermost element. -/
theorem exists_append_close (ancestry : Ancestry Entry) (name : String) :
    ∃ closed, ancestry.innermostFirst = closed ++ (ancestry.close name).innermostFirst := by
  rcases ancestry with ⟨entries⟩
  cases entries with
  | nil => exact ⟨[], rfl⟩
  | cons entry outer =>
      by_cases ends : Named.nameOf entry = name
      · exact ⟨[entry], by simp [close, ends]⟩
      · exact ⟨[], by simp [close, ends]⟩

end Ancestry

theorem exists_append_of_getElem? {α : Type} {list : List α} {place : Nat} {one : α}
    (oneAt : list[place]? = some one) :
    ∃ front back, list = front ++ one :: back ∧ front.length = place := by
  rcases List.getElem?_eq_some_iff.mp oneAt with ⟨bound, rfl⟩
  refine ⟨list.take place, list.drop (place + 1), ?_, ?_⟩
  · rw [List.getElem_cons_drop, List.take_append_drop]
  · rw [List.length_take, Nat.min_eq_left (Nat.le_of_lt bound)]

/-- A tag at its place in a list of tags. -/
structure Occurrence where
  tag : Tag
  place : Nat
deriving DecidableEq, Repr

namespace Occurrence

instance : Named Occurrence := ⟨fun occurrence => occurrence.tag.name⟩

/-- What is open after a tag. -/
def openAfter (opened : Ancestry Occurrence) (occurrence : Occurrence) : Ancestry Occurrence :=
  match occurrence.tag.kind with
  | .opening => opened.push occurrence
  | .closing => opened.close occurrence.tag.name
  | .selfClosing => opened

/-- The occurrences of the tags of a list. -/
def all (tags : List Tag) : List Occurrence :=
  tags.mapIdx fun place tag => ⟨tag, place⟩

/-- The elements that are open after all of the tags. -/
def opened (tags : List Tag) : Ancestry Occurrence :=
  (all tags).foldl openAfter .empty

/-- The innermost element that is open before the tag at a place. -/
def parent? (tags : List Tag) (place : Nat) : Option Occurrence :=
  (opened (tags.take place)).innermost?

/-- The elements around an occurrence, from the outermost to its own. -/
def chain (tags : List Tag) (occurrence : Occurrence) : List Occurrence :=
  (opened (tags.take occurrence.place)).toList ++ [occurrence]

/-- How many start tags of a name have been met under a parent, or at top level. -/
def started (tags : List Tag) (parent : Option Occurrence) (name : String) : Nat :=
  (all tags).countP fun occurrence =>
    occurrence.tag.isStartTag && occurrence.tag.name = name &&
      parent? tags occurrence.place = parent

/-- The number of an occurrence among the start tags of its name under its parent, from one. -/
def siblingNumber (tags : List Tag) (occurrence : Occurrence) : Nat :=
  started (tags.take (occurrence.place + 1)) (parent? tags occurrence.place) occurrence.tag.name

theorem mem_all {tags : List Tag} {occurrence : Occurrence} :
    occurrence ∈ all tags ↔ tags[occurrence.place]? = some occurrence.tag := by
  rcases occurrence with ⟨tag, place⟩
  simp only [all, List.mem_mapIdx, mk.injEq, List.getElem?_eq_some_iff]
  constructor
  · rintro ⟨index, bound, rfl, rfl⟩
    exact ⟨bound, rfl⟩
  · rintro ⟨bound, rfl⟩
    exact ⟨place, bound, rfl, rfl⟩

theorem place_lt_of_mem_all {tags : List Tag} {occurrence : Occurrence}
    (member : occurrence ∈ all tags) : occurrence.place < tags.length :=
  (List.getElem?_eq_some_iff.mp (mem_all.mp member)).1

theorem eq_of_place_eq {tags : List Tag} {first second : Occurrence} (firstMem : first ∈ all tags)
    (secondMem : second ∈ all tags) (same : first.place = second.place) : first = second := by
  rw [mem_all] at firstMem secondMem
  rw [same] at firstMem
  have sameTag := Option.some.inj (firstMem.symm.trans secondMem)
  rcases first with ⟨tag, place⟩
  rcases second with ⟨other, otherPlace⟩
  simp only at sameTag same
  rw [sameTag, same]

theorem all_concat (tags : List Tag) (tag : Tag) :
    all (tags ++ [tag]) = all tags ++ [⟨tag, tags.length⟩] :=
  List.mapIdx_concat

@[simp]
theorem opened_nil : opened [] = .empty :=
  rfl

theorem opened_concat (tags : List Tag) (tag : Tag) :
    opened (tags ++ [tag]) = openAfter (opened tags) ⟨tag, tags.length⟩ := by
  simp [opened, all_concat]

theorem exists_split {tags : List Tag} {occurrence : Occurrence}
    (member : occurrence ∈ all tags) :
    ∃ before after, tags = before ++ occurrence.tag :: after ∧
      occurrence.place = before.length := by
  rcases exists_append_of_getElem? (mem_all.mp member) with ⟨before, after, split, place⟩
  exact ⟨before, after, split, place.symm⟩

theorem mem_all_of_split {tags before after : List Tag} {tag : Tag}
    (split : tags = before ++ tag :: after) : ⟨tag, before.length⟩ ∈ all tags := by
  subst split
  simp [mem_all]

theorem parent?_append {tags : List Tag} (more : List Tag) {place : Nat}
    (within : place ≤ tags.length) : parent? (tags ++ more) place = parent? tags place := by
  rw [parent?, List.take_append_of_le_length within, parent?]

@[simp]
theorem parent?_length (tags more : List Tag) :
    parent? (tags ++ more) tags.length = (opened tags).innermost? := by
  rw [parent?, List.take_left]

/-- One more tag counts for one parent and one name, if it is a start tag. -/
theorem started_concat (tags : List Tag) (tag : Tag) (parent : Option Occurrence) (name : String) :
    started (tags ++ [tag]) parent name =
      started tags parent name +
        if tag.isStartTag ∧ tag.name = name ∧ (opened tags).innermost? = parent then 1 else 0 := by
  have unchanged :
      ((all tags).countP fun occurrence =>
          occurrence.tag.isStartTag && occurrence.tag.name = name &&
            parent? (tags ++ [tag]) occurrence.place = parent) =
        started tags parent name := by
    apply List.countP_congr
    intro occurrence member
    rw [parent?_append [tag] (Nat.le_of_lt (place_lt_of_mem_all member))]
  rw [started, all_concat, List.countP_append, unchanged, List.countP_singleton]
  simp [and_assoc]

theorem siblingNumber_length {before : List Tag} {tag : Tag} (after : List Tag)
    (start : tag.isStartTag = true) :
    siblingNumber (before ++ tag :: after) ⟨tag, before.length⟩ =
      started before (opened before).innermost? tag.name + 1 := by
  have met : (before ++ tag :: after).take (before.length + 1) = before ++ [tag] := by
    rw [List.take_length_add_append, List.take_succ_cons, List.take_zero]
  rw [siblingNumber, met, parent?_length, started_concat, if_pos ⟨start, rfl, rfl⟩]

end Occurrence

end MarkupPath
