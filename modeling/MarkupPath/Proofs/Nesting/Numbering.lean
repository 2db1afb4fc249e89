import Mathlib.Data.List.Forall2
import MarkupPath.Proofs.Nesting.Lineage

/-!
# Sibling numbers

Start tags with the same parent and the same name are numbered in the order in
which they stand. So no two of them have the same number, and an element is known
as soon as the names and the numbers of the elements around it are.
-/

namespace MarkupPath.Occurrence

theorem started_le_append (tags more : List Tag) (parent : Option Occurrence) (name : String) :
    started tags parent name ≤ started (tags ++ more) parent name := by
  induction more using List.reverseRecOn with
  | nil => simp
  | append_singleton more tag ih =>
      rw [← List.append_assoc, started_concat]
      exact Nat.le_trans ih (Nat.le_add_right _ _)

/-- Nothing has started under an element that has not been met before the last tag. -/
theorem started_eq_zero {tags : List Tag} {parent : Occurrence}
    (unmet : tags.length ≤ parent.place + 1) (name : String) :
    started tags (some parent) name = 0 := by
  induction tags using List.reverseRecOn with
  | nil => rfl
  | append_singleton tags tag ih =>
      rw [List.length_append, List.length_singleton] at unmet
      have other : (opened tags).innermost? ≠ some parent := by
        intro innermost
        have met := place_lt_of_mem_opened (List.mem_of_head? innermost)
        omega
      rw [started_concat, ih (by omega), if_neg fun counted => other counted.2.2]

theorem siblingNumber_eq {tags : List Tag} {occurrence : Occurrence}
    (member : occurrence ∈ all tags) (start : occurrence.tag.isStartTag = true) :
    siblingNumber tags occurrence =
      started (tags.take occurrence.place) (parent? tags occurrence.place)
        occurrence.tag.name + 1 := by
  rcases exists_split member with ⟨before, after, rfl, atPlace⟩
  rcases occurrence with ⟨tag, place⟩
  simp only at atPlace
  subst atPlace
  rw [siblingNumber_length after start, List.take_left, parent?_length]

theorem siblingNumber_pos {tags : List Tag} {occurrence : Occurrence}
    (member : occurrence ∈ all tags) (start : occurrence.tag.isStartTag = true) :
    0 < siblingNumber tags occurrence := by
  rw [siblingNumber_eq member start]
  exact Nat.succ_pos _

theorem siblingNumber_le (tags : List Tag) (occurrence : Occurrence) :
    siblingNumber tags occurrence ≤ tags.length := by
  have counted : siblingNumber tags occurrence ≤ (tags.take (occurrence.place + 1)).length := by
    rw [siblingNumber, started, ← List.length_mapIdx]
    exact List.countP_le_length
  exact Nat.le_trans counted (List.length_take_le' _ _)

theorem siblingNumber_lt {tags : List Tag} {first second : Occurrence}
    (member : second ∈ all tags) (start : second.tag.isStartTag = true)
    (order : first.place < second.place) (sameName : first.tag.name = second.tag.name)
    (sameParent : parent? tags first.place = parent? tags second.place) :
    siblingNumber tags first < siblingNumber tags second := by
  rw [siblingNumber_eq member start, siblingNumber, sameName, sameParent]
  have grown := started_le_append (tags.take (first.place + 1))
    ((tags.take second.place).drop (first.place + 1)) (parent? tags second.place) second.tag.name
  have shorter : tags.take (first.place + 1) = (tags.take second.place).take (first.place + 1) := by
    rw [List.take_take, Nat.min_eq_left order]
  rw [shorter, List.take_append_drop] at grown
  rw [shorter]
  exact Nat.lt_succ_of_le grown

theorem eq_of_siblingNumber_eq {tags : List Tag} {first second : Occurrence}
    (firstMem : first ∈ all tags) (secondMem : second ∈ all tags)
    (firstStart : first.tag.isStartTag = true) (secondStart : second.tag.isStartTag = true)
    (sameName : first.tag.name = second.tag.name)
    (sameParent : parent? tags first.place = parent? tags second.place)
    (sameNumber : siblingNumber tags first = siblingNumber tags second) : first = second := by
  rcases Nat.lt_trichotomy first.place second.place with order | samePlace | order
  · have different := siblingNumber_lt secondMem secondStart order sameName sameParent
    omega
  · exact eq_of_place_eq firstMem secondMem samePlace
  · have different := siblingNumber_lt firstMem firstStart order sameName.symm sameParent.symm
    omega

/-- An element has the number one if it is the first of its name under its parent. -/
theorem siblingNumber_eq_one_iff {tags : List Tag} {occurrence : Occurrence}
    (member : occurrence ∈ all tags) (start : occurrence.tag.isStartTag = true) :
    siblingNumber tags occurrence = 1 ↔
      ∀ other ∈ all tags, other.tag.isStartTag = true → other.tag.name = occurrence.tag.name →
        parent? tags other.place = parent? tags occurrence.place →
          occurrence.place ≤ other.place := by
  constructor
  · intro number other otherMem otherStart sameName sameParent
    rcases Nat.lt_or_ge other.place occurrence.place with earlier | later
    · have less := siblingNumber_lt member start earlier sameName sameParent
      have positive := siblingNumber_pos otherMem otherStart
      omega
    · exact later
  · intro first
    rw [siblingNumber_eq member start, Nat.add_eq_right, started, List.countP_eq_zero]
    intro other otherMem
    have earlier := place_lt_of_mem_all otherMem
    rw [List.length_take, Nat.lt_min] at earlier
    have within : other.place ≤ (tags.take occurrence.place).length := by
      rw [List.length_take]
      omega
    have whole := parent?_append (tags.drop occurrence.place) within
    rw [List.take_append_drop] at whole
    simp only [Bool.and_eq_true, decide_eq_true_eq]
    rintro ⟨⟨otherStart, sameName⟩, sameParent⟩
    have inAll : other ∈ all tags := by
      rw [mem_all] at otherMem ⊢
      rwa [List.getElem?_take_of_lt earlier.1] at otherMem
    have notEarlier := first other inAll otherStart sameName (whole.trans sameParent)
    omega

/-- The start tags that are met while no element is open. -/
def topLevel (tags : List Tag) : List Occurrence :=
  (all tags).filter fun occurrence =>
    occurrence.tag.isStartTag && (opened (tags.take occurrence.place)).isEmpty

theorem mem_topLevel {tags : List Tag} {occurrence : Occurrence} :
    occurrence ∈ topLevel tags ↔
      occurrence ∈ all tags ∧ occurrence.tag.isStartTag = true ∧
        parent? tags occurrence.place = none := by
  simp [topLevel, parent?, Ancestry.isEmpty, Ancestry.innermost?]

theorem mem_topLevel_of_chain {tags : List Tag} {occurrence outermost : Occurrence}
    {inner : List Occurrence} (member : occurrence ∈ all tags)
    (start : occurrence.tag.isStartTag = true)
    (split : chain tags occurrence = outermost :: inner) : outermost ∈ topLevel tags := by
  have inChain : outermost ∈ chain tags occurrence := split ▸ List.mem_cons_self
  rcases mem_all_of_mem_lineage member start (mem_lineage_of_mem_chain inChain) with
    ⟨outermostMem, outermostStart⟩
  rw [mem_topLevel]
  exact ⟨outermostMem, outermostStart, (top_iff_of_chain split inChain).mpr rfl⟩

/-- Two elements have the same names and numbers in their lineages. -/
def Alike (tags : List Tag) (first second : Occurrence) : Prop :=
  List.Forall₂ (fun one other => one.tag.name = other.tag.name ∧
    siblingNumber tags one = siblingNumber tags other) (lineage tags first) (lineage tags second)

/-- Elements that are alike are both at the top level, or have parents that are alike. -/
theorem Alike.parents {tags : List Tag} {first second : Occurrence}
    (alike : Alike tags first second) :
    (parent? tags first.place = none ∧ parent? tags second.place = none) ∨
      ∃ parent other, parent? tags first.place = some parent ∧
        parent? tags second.place = some other ∧ Alike tags parent other := by
  cases firstAbove : parent? tags first.place with
  | none =>
      cases secondAbove : parent? tags second.place with
      | none => exact Or.inl ⟨rfl, rfl⟩
      | some other =>
          rw [Alike, lineage_of_top firstAbove, lineage_of_parent secondAbove] at alike
          have lengths := alike.length_eq
          simp [lineage] at lengths
  | some parent =>
      cases secondAbove : parent? tags second.place with
      | none =>
          rw [Alike, lineage_of_parent firstAbove, lineage_of_top secondAbove] at alike
          have lengths := alike.length_eq
          simp [lineage] at lengths
      | some other =>
          rw [Alike, lineage_of_parent firstAbove, lineage_of_parent secondAbove,
            List.forall₂_cons] at alike
          exact Or.inr ⟨parent, other, rfl, rfl, alike.2⟩

/-- Names and numbers tell the element: no other one is alike. -/
theorem Alike.eq {tags : List Tag} {first second : Occurrence} (alike : Alike tags first second)
    (firstMem : first ∈ all tags) (secondMem : second ∈ all tags)
    (firstStart : first.tag.isStartTag = true) (secondStart : second.tag.isStartTag = true) :
    first = second := by
  induction place : first.place using Nat.strongRecOn generalizing first second with
  | _ place ih =>
    have sameParent : parent? tags first.place = parent? tags second.place := by
      rcases alike.parents with
        ⟨firstTop, secondTop⟩ | ⟨parent, other, firstAbove, secondAbove, above⟩
      · rw [firstTop, secondTop]
      · rcases mem_all_of_parent firstMem firstStart firstAbove with ⟨parentMem, parentStart⟩
        rcases mem_all_of_parent secondMem secondStart secondAbove with ⟨otherMem, otherStart⟩
        have earlier := parent_place_lt firstAbove
        rw [place] at earlier
        rw [firstAbove, secondAbove,
          ih parent.place earlier above parentMem otherMem parentStart otherStart rfl]
    rw [Alike, lineage, lineage, List.forall₂_cons] at alike
    exact eq_of_siblingNumber_eq firstMem secondMem firstStart secondStart alike.1.1 sameParent
      alike.1.2

end MarkupPath.Occurrence
