import MarkupPath.Element.Segment
import MarkupPath.Proofs.Element.Enclosing
import MarkupPath.Proofs.Nesting.Numbering

/-!
# Sibling indexes are sibling numbers

`Element.siblingIndex` reads the text again from the parent's start tag and keeps
an ancestry of its own. While the parent is open, this ancestry is the upper part
of the whole one, down to the parent. So the tags that the second reading counts
are those that the replay of the whole text puts under the parent, and the index
of an element is its number among them.
-/

namespace MarkupPath

namespace Occurrence

/-- An element is outside of all the elements that are open inside of it. -/
theorem innermost?_eq_parent_iff {tags : List Tag} {nested outer : List Occurrence}
    {parent : Occurrence}
    (isOpen : (opened tags).innermostFirst = nested ++ parent :: outer) :
    (opened tags).innermost? = some parent ↔ nested = [] := by
  constructor
  · intro innermost
    cases nested with
    | nil => rfl
    | cons first nested =>
        rw [Ancestry.innermost?, isOpen, List.cons_append, List.head?_cons,
          Option.some.injEq] at innermost
        have later := place_lt_of_innermost isOpen
          (List.mem_append_right nested List.mem_cons_self)
        rw [innermost] at later
        exact absurd later (Nat.lt_irrefl _)
  · rintro rfl
    rw [Ancestry.innermost?, isOpen]
    rfl

end Occurrence

namespace Element

open Occurrence

theorem nestedAfter_of_open {opened : Ancestry Occurrence} {nested outer : List Occurrence}
    {parent : Occurrence} (isOpen : opened.innermostFirst = nested ++ parent :: outer)
    (tag : Tag) (place : Nat)
    (stays : ¬(tag.kind = .closing ∧ nested = [] ∧ tag.name = parent.tag.name)) :
    ∃ later, (Occurrence.openAfter opened ⟨tag, place⟩).innermostFirst = later ++ parent :: outer ∧
      nestedAfter ⟨nested.map (·.tag.name)⟩ tag = ⟨later.map (·.tag.name)⟩ := by
  rcases opened with ⟨entries⟩
  simp only at isOpen
  subst isOpen
  cases kind : tag.kind with
  | opening =>
      exact ⟨⟨tag, place⟩ :: nested, by simp [Occurrence.openAfter, kind, Ancestry.push],
        by simp [nestedAfter, kind, Ancestry.push]⟩
  | closing =>
      cases nested with
      | nil =>
          have other : ¬parent.tag.name = tag.name := by
            intro same
            exact stays ⟨kind, rfl, same.symm⟩
          exact ⟨[],
            by simp [Occurrence.openAfter, kind, Ancestry.close, Named.nameOf, other],
            by simp [nestedAfter, kind, Ancestry.close]⟩
      | cons first nested =>
          by_cases ends : first.tag.name = tag.name
          · exact ⟨nested,
              by simp [Occurrence.openAfter, kind, Ancestry.close, Named.nameOf, ends],
              by simp [nestedAfter, kind, Ancestry.close, Named.nameOf, ends]⟩
          · exact ⟨first :: nested,
              by simp [Occurrence.openAfter, kind, Ancestry.close, Named.nameOf, ends],
              by simp [nestedAfter, kind, Ancestry.close, Named.nameOf, ends]⟩
  | selfClosing => exact ⟨nested, by simp [Occurrence.openAfter, kind], by simp [nestedAfter, kind]⟩

/-- A closing tag of the parent's name with nothing open inside of the parent ends the parent. -/
theorem not_mem_opened_of_closed {before : List Tag} {parent : Occurrence}
    {outer : List Occurrence} {tag : Tag}
    (isOpen : (opened before).innermostFirst = parent :: outer) (closing : tag.kind = .closing)
    (sameName : tag.name = parent.tag.name) :
    parent ∉ (opened (before ++ [tag])).innermostFirst := by
  have entries : opened before = ⟨parent :: outer⟩ := by
    rw [← isOpen]
  have left : (opened (before ++ [tag])).innermostFirst = outer := by
    simp [opened_concat, entries, Occurrence.openAfter, closing, Ancestry.close, Named.nameOf,
      sameName]
  rw [left]
  intro member
  have earlier := place_lt_of_innermost isOpen member
  exact Nat.lt_irrefl _ earlier

/-- While its parent is still to be innermost, a tag does not end it. -/
theorem not_ends_of_later {before between : List Tag} {parent : Occurrence}
    {nested outer : List Occurrence} {tag : Tag}
    (isOpen : (opened before).innermostFirst = nested ++ parent :: outer)
    (later : (opened (before ++ [tag] ++ between)).innermost? = some parent) :
    ¬(tag.kind = .closing ∧ nested = [] ∧ tag.name = parent.tag.name) := by
  rintro ⟨closing, rfl, sameName⟩
  have innermost := (innermost?_eq_parent_iff isOpen).mpr rfl
  have ended := not_mem_opened_of_closed isOpen closing sameName
  have bound := place_lt_of_mem_opened (List.mem_of_head? innermost)
  have met : parent.place < (before ++ [tag]).length := by
    rw [List.length_append]
    omega
  exact not_mem_opened_append met ended between (List.mem_of_head? later)

/-- The second reading counts a tag if the replay of the whole text puts it under the parent. -/
theorem countsFor_iff {before : List Tag} {parent target : Occurrence}
    {nested outer : List Occurrence} {skip : NameSet}
    (shown : skip.contains target.tag.name = false)
    (isOpen : (opened before).innermostFirst = nested ++ parent :: outer) (tag : Tag) :
    countsFor (ofOccurrence target) skip ⟨nested.map (·.tag.name)⟩ tag = true ↔
      tag.isStartTag ∧ tag.name = target.tag.name ∧
        (opened before).innermost? = some parent := by
  rw [innermost?_eq_parent_iff isOpen]
  constructor
  · intro counts
    simp only [countsFor, Bool.and_eq_true, decide_eq_true_eq, Ancestry.isEmpty,
      List.isEmpty_iff, List.map_eq_nil_iff] at counts
    exact ⟨counts.1.1.1, counts.1.2, counts.1.1.2⟩
  · rintro ⟨isStart, sameName, rfl⟩
    simp [countsFor, isStart, sameName, shown, Ancestry.isEmpty]

/-- The second reading goes on after a tag that is neither of the two and does not end the parent. -/
theorem indexAmong_cons {parent target : Element} {skip : NameSet} {nested : Ancestry String}
    {count : Nat} {tag : Tag} (rest : List Tag) (notParent : tag.offset ≠ parent.offset)
    (notTarget : tag.offset ≠ target.offset) (within : parent.isBeyond tag = false)
    (stays : ¬(tag.kind = .closing ∧ nested.isEmpty ∧ tag.name = parent.name)) :
    indexAmong parent target skip nested count (tag :: rest) =
      indexAmong parent target skip (nestedAfter nested tag)
        (count + if target.countsFor skip nested tag then 1 else 0) rest := by
  have goesOn : ¬(tag.kind = .closing && nested.isEmpty && tag.name = parent.name) = true := by
    simp only [Bool.and_eq_true, decide_eq_true_eq, and_assoc]
    exact stays
  rw [indexAmong, if_neg notParent, within, if_neg Bool.false_ne_true, if_neg goesOn,
    if_neg notTarget]
  split
  · rfl
  · rfl

/-- The rest of the second reading: from some place inside of the parent up to the target. -/
theorem indexAmong_between {parent target : Occurrence} {skip : NameSet}
    {nested outer : List Occurrence} {before between : List Tag} (after : List Tag)
    (opening : parent.tag.kind = .opening) (start : target.tag.isStartTag = true)
    (shown : skip.contains target.tag.name = false)
    (isOpen : (opened before).innermostFirst = nested ++ parent :: outer)
    (parents : (opened (before ++ between)).innermost? = some parent)
    (notParent : ∀ tag ∈ between ++ [target.tag], tag.offset ≠ parent.tag.offset)
    (notTarget : ∀ tag ∈ between, tag.offset ≠ target.tag.offset) :
    indexAmong (ofOccurrence parent) (ofOccurrence target) skip ⟨nested.map (·.tag.name)⟩
        (started before (some parent) target.tag.name) (between ++ target.tag :: after) =
      some (started (before ++ between) (some parent) target.tag.name + 1) := by
  have within : ∀ tag, (ofOccurrence parent).isBeyond tag = false := by
    intro tag
    simp [isBeyond, ofOccurrence, ofTag, opening]
  -- The tags are read one by one; what is open inside of the parent grows and shrinks with them.
  induction between generalizing before nested with
  | nil =>
      rw [List.append_nil] at parents
      have nothing : nested = [] := (innermost?_eq_parent_iff isOpen).mp parents
      have otherOffset := notParent target.tag (by simp)
      have notClosing : ¬target.tag.kind = .closing := by simpa [Tag.isStartTag] using start
      subst nothing
      rw [List.append_nil]
      simp [indexAmong, otherOffset, within, notClosing, countsFor, start, shown,
        Ancestry.isEmpty]
  | cons tag between ih =>
      rw [List.append_cons before] at parents ⊢
      have stays := not_ends_of_later isOpen parents
      rcases nestedAfter_of_open isOpen tag before.length stays with ⟨later, laterOpen, laterNames⟩
      rw [← opened_concat] at laterOpen
      have further := ih laterOpen parents
        (fun other member => notParent other (List.mem_cons_of_mem _ member))
        (fun other member => notTarget other (List.mem_cons_of_mem _ member))
      rw [List.cons_append, indexAmong_cons _ (notParent tag (by simp))
        (notTarget tag List.mem_cons_self) (within tag) (by simpa [Ancestry.isEmpty] using stays),
        laterNames]
      simp only [countsFor_iff shown isOpen tag]
      rw [started_concat] at further
      exact further

/-- Reading from the parent's start tag on, the index of a child is its number. -/
theorem indexAmong_of_family {text : String} {parent target : Occurrence} {skip : NameSet}
    {outer : List Occurrence} {before between after : List Tag}
    (family : Family (Tag.scan text) parent target outer before between after)
    (start : target.tag.isStartTag = true) (shown : skip.contains target.tag.name = false) :
    indexAmong (ofOccurrence parent) (ofOccurrence target) skip .empty 0
        (parent.tag :: (between ++ target.tag :: after)) =
      some (siblingNumber (Tag.scan text) target) := by
  have ordered := Tag.scan_offset_lt text
  rw [family.split, List.pairwise_append, List.pairwise_cons, List.pairwise_append] at ordered
  have notParent : ∀ tag ∈ between ++ [target.tag], tag.offset ≠ parent.tag.offset := by
    intro tag tagMem
    have member : tag ∈ between ++ target.tag :: after := by
      rw [List.append_cons]
      exact List.mem_append_left after tagMem
    have later := ordered.2.1.1 tag member
    omega
  have notTarget : ∀ tag ∈ between, tag.offset ≠ target.tag.offset := by
    intro tag tagMem
    have earlier := ordered.2.1.2.2.2 tag tagMem target.tag List.mem_cons_self
    omega
  have isOpen : (opened (before ++ [parent.tag])).innermostFirst = [] ++ parent :: outer :=
    family.isOpen
  have parents : (opened (before ++ [parent.tag] ++ between)).innermost? = some parent := by
    rw [← List.append_cons, Ancestry.innermost?, family.stillOpen, List.head?_cons]
  -- The second reading starts at the parent, where none of its children has been met.
  have unmet : started (before ++ [parent.tag]) (some parent) target.tag.name = 0 :=
    started_eq_zero (by simp [family.parentPlace]) target.tag.name
  have counted := indexAmong_between after family.opening start shown isOpen parents notParent
    notTarget
  have atParent : parent.tag.offset = (ofOccurrence parent).offset := rfl
  rw [unmet, List.map_nil, ← List.append_cons] at counted
  rw [indexAmong, if_pos atParent, siblingNumber_eq family.member start, family.take_target,
    parent?, family.take_target, Ancestry.innermost?, family.stillOpen, List.head?_cons]
  exact counted

/-- The index of an element below the top of its path is its number among its siblings. -/
theorem siblingIndex_of_chain {text : String} {occurrence parent target : Occurrence}
    {front back : List Occurrence} {skip : NameSet}
    (member : occurrence ∈ all (Tag.scan text)) (start : occurrence.tag.isStartTag = true)
    (split : chain (Tag.scan text) occurrence = front ++ parent :: target :: back)
    (shown : skip.contains target.tag.name = false) :
    siblingIndex text ((chain (Tag.scan text) occurrence).map ofOccurrence) (front.length + 1) skip =
      siblingNumber (Tag.scan text) target := by
  have inLineage : target ∈ lineage (Tag.scan text) occurrence := by
    apply mem_lineage_of_mem_chain
    rw [split]
    simp
  rcases mem_all_of_mem_lineage member start inLineage with ⟨targetMem, targetStart⟩
  have parents : (opened ((Tag.scan text).take target.place)).innermostFirst =
      parent :: front.reverse := by
    rw [List.append_cons] at split
    simpa using opened_of_chain split
  rcases exists_family targetMem parents with ⟨before, between, after, family⟩
  have parentAt : ((chain (Tag.scan text) occurrence).map ofOccurrence)[front.length]? =
      some (ofOccurrence parent) := by
    simp [split]
  have targetAt : ((chain (Tag.scan text) occurrence).map ofOccurrence)[front.length + 1]? =
      some (ofOccurrence target) := by
    simp [split]
  have resumed : Tag.scanFrom text (ofOccurrence parent).offset =
      parent.tag :: (between ++ target.tag :: after) :=
    Tag.scanFrom_offset family.split
  rw [siblingIndex, parentAt, targetAt]
  simp only [resumed, indexAmong_of_family family targetStart shown, Option.getD_some]

end Element

end MarkupPath
