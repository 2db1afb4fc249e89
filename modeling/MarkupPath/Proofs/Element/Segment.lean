import MarkupPath.Proofs.Element.SiblingIndex

/-!
# The segments of a chain

The segments of the path to a start tag are told by the chain of the tag alone:
one segment for each element of the chain, with the number of the element among
its siblings as the index. At top level, where an element has no parent, the
index is one whatever the number is.
-/

namespace MarkupPath

namespace Occurrence

/-- The index that a path shows for an element. -/
def shownIndex (tags : List Tag) (occurrence : Occurrence) : Nat :=
  if (parent? tags occurrence.place).isSome then siblingNumber tags occurrence else 1

theorem shownIndex_of_parent {tags : List Tag} {occurrence parent : Occurrence}
    (above : parent? tags occurrence.place = some parent) :
    shownIndex tags occurrence = siblingNumber tags occurrence := by
  rw [shownIndex, above]
  rfl

theorem shownIndex_of_top {tags : List Tag} {occurrence : Occurrence}
    (atTop : parent? tags occurrence.place = none) : shownIndex tags occurrence = 1 := by
  rw [shownIndex, atTop]
  rfl

end Occurrence

namespace Segment

open Occurrence

/-- The segment of the element that an occurrence starts. -/
def ofOccurrence (tags : List Tag) (nameAttributes : List String) (occurrence : Occurrence) :
    Segment :=
  ofParts occurrence.tag.name (occurrence.shownIndex tags)
    (occurrence.tag.attributes.firstFilled nameAttributes)

theorem ofElement_of_chain (nameAttributes : List String) {text : String}
    {occurrence target : Occurrence} {front back : List Occurrence} {skip : NameSet}
    (member : occurrence ∈ all (Tag.scan text)) (start : occurrence.tag.isStartTag = true)
    (split : chain (Tag.scan text) occurrence = front ++ target :: back)
    (shown : skip.contains target.tag.name = false) :
    ofElement text ((chain (Tag.scan text) occurrence).map Element.ofOccurrence) skip
        nameAttributes (Element.ofOccurrence target) front.length =
      ofOccurrence (Tag.scan text) nameAttributes target := by
  have index : Element.siblingIndex text ((chain (Tag.scan text) occurrence).map
      Element.ofOccurrence) front.length skip = max 1 (target.shownIndex (Tag.scan text)) := by
    rw [shownIndex, parent?_of_chain split]
    rcases List.eq_nil_or_concat front with rfl | ⟨outer, parent, rfl⟩
    · simp [Element.siblingIndex]
    · have above : chain (Tag.scan text) occurrence = outer ++ parent :: target :: back := by
        rw [split, List.concat_eq_append, List.append_assoc, List.singleton_append]
      have inLineage : target ∈ lineage (Tag.scan text) occurrence := by
        apply mem_lineage_of_mem_chain
        rw [above]
        simp
      rcases mem_all_of_mem_lineage member start inLineage with ⟨targetMem, targetStart⟩
      have positive := siblingNumber_pos targetMem targetStart
      rw [List.length_concat, Element.siblingIndex_of_chain member start above shown]
      simp [Nat.max_eq_right positive]
  simp only [ofElement, ofOccurrence, ofParts, index]
  rfl

/-- The segments of a path are those of its elements, whatever is left out of it. -/
theorem ofPath_chain {text : String} {occurrence : Occurrence}
    (member : occurrence ∈ all (Tag.scan text)) (start : occurrence.tag.isStartTag = true)
    (skip : NameSet) (nameAttributes : List String) :
    ofPath text ((chain (Tag.scan text) occurrence).map Element.ofOccurrence) skip nameAttributes =
      ((chain (Tag.scan text) occurrence).filter fun element => !skip.contains element.tag.name).map
        (ofOccurrence (Tag.scan text) nameAttributes) := by
  have eachSegment : ∀ entry ∈ (chain (Tag.scan text) occurrence).zipIdx.filter
        (fun entry => !skip.contains entry.1.tag.name),
      ofElement text ((chain (Tag.scan text) occurrence).map Element.ofOccurrence) skip
          nameAttributes (Element.ofOccurrence entry.1) entry.2 =
        ofOccurrence (Tag.scan text) nameAttributes entry.1 := by
    rintro ⟨target, place⟩ entryMem
    rw [List.mem_filter, List.mk_mem_zipIdx_iff_getElem?] at entryMem
    rcases exists_append_of_getElem? entryMem.1 with ⟨front, back, split, rfl⟩
    have shown : skip.contains target.tag.name = false := by simpa using entryMem.2
    exact ofElement_of_chain nameAttributes member start split shown
  rw [ofPath, List.zipIdx_map, List.filter_map, List.map_map]
  have entries : ((chain (Tag.scan text) occurrence).filter
        fun element => !skip.contains element.tag.name) =
      ((chain (Tag.scan text) occurrence).zipIdx.filter
        fun entry => !skip.contains entry.1.tag.name).map Prod.fst := by
    conv_lhs => rw [← List.zipIdx_map_fst 0 (chain (Tag.scan text) occurrence), List.filter_map]
    rfl
  rw [entries, List.map_map]
  exact List.map_congr_left eachSegment

/-- The segments at a cursor in a start tag. -/
theorem ofPath_of_startTag {text : String} {before after : List Tag} {tag : Tag}
    (found : Tag.scan text = before ++ tag :: after) (start : tag.isStartTag = true) {offset : Nat}
    (offset_ge : tag.offset ≤ offset) (offset_lt : offset < tag.stop) (skip : NameSet)
    (nameAttributes : List String) :
    ofPath text (Element.enclosingIn text offset) skip nameAttributes =
      ((chain (Tag.scan text) ⟨tag, before.length⟩).filter
          fun element => !skip.contains element.tag.name).map
        (ofOccurrence (Tag.scan text) nameAttributes) := by
  rw [Element.enclosingIn_of_startTag found start offset_ge offset_lt]
  exact ofPath_chain (mem_all_of_split found) start skip nameAttributes

theorem filter_unskipped (elements : List Occurrence) :
    (elements.filter fun element => !NameSet.empty.contains element.tag.name) = elements := by
  rw [List.filter_eq_self]
  intro element _
  rfl

end Segment

end MarkupPath
