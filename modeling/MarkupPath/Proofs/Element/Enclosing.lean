import Mathlib.Data.List.TakeWhile
import MarkupPath.Element.Enclosing
import MarkupPath.Proofs.Markup.ScanOrder
import MarkupPath.Proofs.Nesting.Lineage

/-!
# The elements around an offset

The pass of `Element.enclosing` keeps the open elements just as the replay of
occurrences does, so its answers are chains of occurrences. Inside a start tag
the answer is the chain of this tag. Where no tag is, it is what is open there.

A pass reads no tag that starts behind the offset. So all elements that it remembers
start at the offset or before, and none has to be taken from the end of a path.
-/

namespace MarkupPath.Tag

open Occurrence (all)

theorem offset_lt_of_place_lt {text : String} {first second : Occurrence}
    (firstMem : first ∈ all (scan text)) (secondMem : second ∈ all (scan text))
    (order : first.place < second.place) : first.tag.offset < second.tag.offset := by
  rcases List.getElem?_eq_some_iff.mp (Occurrence.mem_all.mp firstMem) with ⟨firstBound, firstAt⟩
  rcases List.getElem?_eq_some_iff.mp (Occurrence.mem_all.mp secondMem) with
    ⟨secondBound, secondAt⟩
  rw [← firstAt, ← secondAt]
  exact List.pairwise_iff_getElem.mp (scan_offset_lt text) _ _ firstBound secondBound order

theorem offset_le_iff_place_le {text : String} {first second : Occurrence}
    (firstMem : first ∈ all (scan text)) (secondMem : second ∈ all (scan text)) :
    first.tag.offset ≤ second.tag.offset ↔ first.place ≤ second.place := by
  constructor
  · intro offset_le
    rcases Nat.lt_or_ge second.place first.place with later | order
    · have offset_lt := offset_lt_of_place_lt secondMem firstMem later
      omega
    · exact order
  · intro order
    rcases Nat.lt_or_eq_of_le order with earlier | samePlace
    · exact Nat.le_of_lt (offset_lt_of_place_lt firstMem secondMem earlier)
    · have same := Occurrence.eq_of_place_eq firstMem secondMem samePlace
      exact Nat.le_of_eq (congrArg (·.tag.offset) same)

theorem eq_of_start_eq {text : String} {first second : Occurrence}
    (firstMem : first ∈ all (scan text)) (secondMem : second ∈ all (scan text))
    (same : first.tag.start = second.tag.start) : first = second := by
  have sameOffset : first.tag.offset = second.tag.offset := by rw [offset, offset, same]
  apply Occurrence.eq_of_place_eq firstMem secondMem
  apply Nat.le_antisymm
  · exact (offset_le_iff_place_le firstMem secondMem).mp (Nat.le_of_eq sameOffset)
  · exact (offset_le_iff_place_le secondMem firstMem).mp (Nat.le_of_eq sameOffset.symm)

end MarkupPath.Tag

namespace MarkupPath.Element

/-- The element that an occurrence starts. -/
def ofOccurrence (occurrence : Occurrence) : Element :=
  ofTag occurrence.tag

@[simp]
theorem name_ofOccurrence (occurrence : Occurrence) :
    (ofOccurrence occurrence).name = occurrence.tag.name :=
  rfl

@[simp]
theorem offset_ofOccurrence (occurrence : Occurrence) :
    (ofOccurrence occurrence).offset = occurrence.tag.offset :=
  rfl

theorem openAfter_map (opened : Ancestry Occurrence) (occurrence : Occurrence) :
    openAfter ⟨opened.innermostFirst.map ofOccurrence⟩ occurrence.tag =
      ⟨(Occurrence.openAfter opened occurrence).innermostFirst.map ofOccurrence⟩ := by
  cases kind : occurrence.tag.kind with
  | opening => simp [openAfter, Occurrence.openAfter, kind, Ancestry.push, ofOccurrence]
  | closing =>
      rcases opened with ⟨entries⟩
      cases entries with
      | nil => simp [openAfter, Occurrence.openAfter, kind, Ancestry.close]
      | cons innermost outer =>
          simp only [openAfter, Occurrence.openAfter, kind, Ancestry.close, List.map_cons]
          by_cases ends : innermost.tag.name = occurrence.tag.name
          · simp [Named.nameOf, ends]
          · simp [Named.nameOf, ends]
  | selfClosing => simp [openAfter, Occurrence.openAfter, kind]

/-- Replaying elements gives the elements of the replayed occurrences. -/
theorem foldl_openAfter (tags : List Tag) :
    tags.foldl openAfter .empty = ⟨(Occurrence.opened tags).innermostFirst.map ofOccurrence⟩ := by
  induction tags using List.reverseRecOn with
  | nil => rfl
  | append_singleton tags tag ih =>
      rw [List.foldl_append, ih, Occurrence.opened_concat]
      exact openAfter_map (Occurrence.opened tags) ⟨tag, tags.length⟩

namespace Trail

theorem startedBy_eq_self {offset : Nat} {elements : List Element}
    (started : ∀ element ∈ elements, element.offset ≤ offset) :
    startedBy offset elements = elements := by
  have deepest : ∀ element, elements.reverse.head? = some element →
      ¬offset < element.offset := by
    intro element isDeepest
    exact Nat.not_lt.mpr (started element (List.mem_reverse.mp (List.mem_of_head? isDeepest)))
  rw [startedBy]
  cases reversed : elements.reverse with
  | nil => exact (List.reverse_eq_nil_iff.mp reversed).symm
  | cons innermost outer =>
      rw [List.dropWhile_cons_of_neg (by simpa using deepest innermost (by simp [reversed])),
        ← reversed, List.reverse_reverse]

/-- All elements that a pass remembers for a place without a start tag have started there. -/
structure Started (offset : Nat) (trail : Trail) : Prop where
  opened_le : ∀ element ∈ trail.opened.innermostFirst, element.offset ≤ offset
  inContent_le : ∀ path ∈ trail.inContent, ∀ element ∈ path, element.offset ≤ offset

theorem started_initial (offset : Nat) : Started offset {} where
  opened_le := nofun
  inContent_le := nofun

theorem Started.visit {offset : Nat} {trail : Trail} {tag : Tag} (started : Started offset trail)
    (reached : tag.offset ≤ offset) : Started offset (trail.visit offset tag) := by
  constructor
  · intro element member
    simp only [Trail.visit, openAfter] at member
    cases kind : tag.kind with
    | opening =>
        rw [kind] at member
        rcases List.mem_cons.mp member with rfl | member
        · exact reached
        · exact started.opened_le element member
    | closing =>
        rw [kind] at member
        rcases trail.opened.exists_append_close tag.name with ⟨closed, stack⟩
        exact started.opened_le element (stack ▸ List.mem_append_right closed member)
    | selfClosing =>
        rw [kind] at member
        exact started.opened_le element member
  · intro path isPath
    simp only [Trail.visit] at isPath
    split at isPath
    · rcases isPath with ⟨⟩
      exact fun element member => started.opened_le element (List.mem_reverse.mp member)
    · exact started.inContent_le path isPath

theorem Started.foldl {offset : Nat} {trail : Trail} {tags : List Tag}
    (started : Started offset trail) (reached : ∀ tag ∈ tags, tag.offset ≤ offset) :
    Started offset (tags.foldl (Trail.visit offset) trail) := by
  induction tags generalizing trail with
  | nil => exact started
  | cons tag tags ih =>
      rw [List.forall_mem_cons] at reached
      exact ih (started.visit reached.1) reached.2

/-- Nothing is taken from the end of what a pass remembers. -/
theorem Started.path_eq {offset : Nat} {trail : Trail} (started : Started offset trail) :
    trail.path offset = trail.inTag.getD (trail.inContent.getD trail.opened.toList) := by
  rw [Trail.path, startedBy_eq_self]
  intro element member
  cases remembered : trail.inContent with
  | none =>
      rw [remembered] at member
      exact started.opened_le element (List.mem_reverse.mp member)
  | some path =>
      rw [remembered] at member
      exact started.inContent_le path remembered element member

theorem opened_foldl (offset : Nat) (tags : List Tag) (trail : Trail) :
    (tags.foldl (visit offset) trail).opened = tags.foldl openAfter trail.opened := by
  induction tags generalizing trail with
  | nil => rfl
  | cons tag tags ih =>
      rw [List.foldl_cons, ih]
      rfl

/-- Tags that end before the offset leave no trace besides the open elements. -/
theorem foldl_of_stop_lt {offset : Nat} {tags : List Tag}
    (before : ∀ tag ∈ tags, tag.stop < offset) (opened : Ancestry Element) :
    tags.foldl (visit offset) { opened := opened } = { opened := tags.foldl openAfter opened } := by
  induction tags generalizing opened with
  | nil => rfl
  | cons tag tags ih =>
      have stop_lt := before tag List.mem_cons_self
      have uncovered : tag.covers offset = false := by
        simp only [Tag.covers, Bool.and_eq_false_iff, decide_eq_false_iff_not]
        omega
      have unreached : ¬offset ≤ tag.stop := by omega
      have visited :
          visit offset { opened := opened } tag = { opened := openAfter opened tag } := by
        simp [visit, uncovered, unreached]
      rw [List.foldl_cons, List.foldl_cons, visited]
      exact ih (fun later member => before later (List.mem_cons_of_mem _ member)) _

end Trail

theorem enclosing_eq (tags : List Tag) (offset : Nat) :
    enclosing tags offset =
      let trail := (tags.takeWhile (·.offset ≤ offset)).foldl (Trail.visit offset) {}
      trail.inTag.getD (trail.inContent.getD trail.opened.toList) := by
  have reached : ∀ tag ∈ tags.takeWhile (·.offset ≤ offset), tag.offset ≤ offset := by
    intro tag member
    simpa using List.mem_takeWhile_imp member
  exact ((Trail.started_initial offset).foldl reached).path_eq

theorem takeWhile_offset_le {before after : List Tag} {offset : Nat}
    (reached : ∀ tag ∈ before, tag.offset ≤ offset) (beyond : ∀ tag ∈ after, offset < tag.offset) :
    (before ++ after).takeWhile (·.offset ≤ offset) = before := by
  rw [List.takeWhile_append_of_pos (by simpa using reached)]
  cases after with
  | nil => simp
  | cons first rest =>
      have first_gt := beyond first List.mem_cons_self
      simp [Nat.not_le.mpr first_gt]

/-- The tags before a tag end before it, and the tags after it start at its end or later. -/
theorem scan_split {text : String} {before after : List Tag} {tag : Tag}
    (found : Tag.scan text = before ++ tag :: after) :
    (∀ earlier ∈ before, earlier.stop ≤ tag.offset) ∧ ∀ later ∈ after, tag.stop ≤ later.offset := by
  have ordered := Tag.scan_pairwise text
  rw [found, List.pairwise_append, List.pairwise_cons] at ordered
  exact ⟨fun earlier member => ordered.2.2 earlier member tag List.mem_cons_self,
    ordered.2.1.1⟩

/-- Inside a start tag, the elements around the cursor are the chain of this tag. -/
theorem enclosingIn_of_startTag {text : String} {before after : List Tag} {tag : Tag}
    (found : Tag.scan text = before ++ tag :: after) (start : tag.isStartTag = true) {offset : Nat}
    (offset_ge : tag.offset ≤ offset) (offset_lt : offset < tag.stop) :
    enclosingIn text offset =
      (Occurrence.chain (Tag.scan text) ⟨tag, before.length⟩).map ofOccurrence := by
  rcases scan_split found with ⟨earlier_le, later_ge⟩
  have seen : (Tag.scan text).takeWhile (·.offset ≤ offset) = before ++ [tag] := by
    rw [found, List.append_cons]
    apply takeWhile_offset_le
    · intro earlier member
      rcases List.mem_append.mp member with member | member
      · have stop_le := earlier_le earlier member
        have inScan : earlier ∈ Tag.scan text := found ▸ List.mem_append_left _ member
        have length := Tag.offset_add_two_le_stop inScan
        omega
      · rw [List.mem_singleton.mp member]
        exact offset_ge
    · intro later member
      exact Nat.lt_of_lt_of_le offset_lt (later_ge later member)
  have covered : (tag.isStartTag && tag.covers offset) = true := by
    simp [start, Tag.covers, offset_ge, Nat.le_of_lt offset_lt]
  rw [enclosingIn, enclosing_eq, seen, List.foldl_append, Occurrence.chain, found, List.take_left]
  simp only [List.foldl_cons, List.foldl_nil, Trail.visit, covered, if_true,
    Option.getD_some, Trail.opened_foldl, foldl_openAfter, List.map_append, List.map_cons,
    List.map_nil, Ancestry.toList, List.map_reverse]
  rfl

/-- Between two tags, the elements around the cursor are those that are open there. -/
theorem enclosingIn_of_between {text : String} {before after : List Tag} {offset : Nat}
    (found : Tag.scan text = before ++ after) (ended : ∀ tag ∈ before, tag.stop < offset)
    (beyond : ∀ tag ∈ after, offset < tag.offset) :
    enclosingIn text offset = (Occurrence.opened before).toList.map ofOccurrence := by
  have seen : (Tag.scan text).takeWhile (·.offset ≤ offset) = before := by
    rw [found]
    refine takeWhile_offset_le ?_ beyond
    intro tag member
    have stop_lt := ended tag member
    have inScan : tag ∈ Tag.scan text := found ▸ List.mem_append_left _ member
    have length := Tag.offset_add_two_le_stop inScan
    omega
  rw [enclosingIn, enclosing_eq, seen, Trail.foldl_of_stop_lt ended, foldl_openAfter]
  simp [Ancestry.toList]

end MarkupPath.Element
