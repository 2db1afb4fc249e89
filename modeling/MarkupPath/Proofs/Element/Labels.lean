import MarkupPath.Proofs.Element.Segment
import MarkupPath.Proofs.Nesting.Address

/-!
# Labels of segments

At a cursor in a start tag, the path has one segment for every element of the
chain of the tag. Below the top level its tag and index are the label of the
element. At the top level the index is one, whatever number the element has.
-/

namespace MarkupPath

open Occurrence

theorem Element.enclosingIn_start {text : String} {occurrence : Occurrence}
    (inStarts : occurrence ∈ starts (Tag.scan text)) :
    enclosingIn text (occurrence.tag.offset + 1) =
      (chain (Tag.scan text) occurrence).map ofOccurrence := by
  rcases mem_starts.mp inStarts with ⟨member, start⟩
  rcases exists_split member with ⟨before, after, found, place⟩
  have length := Tag.offset_add_two_le_stop (List.mem_of_getElem? (mem_all.mp member))
  have within : occurrence.tag.offset + 1 < occurrence.tag.stop := by omega
  rw [enclosingIn_of_startTag found start (Nat.le_succ _) within, ← place]

namespace Segment

/-- The segments of the element at an offset, with none left out. -/
def allAt (text : String) (offset : Nat) (nameAttributes : List String) : List Segment :=
  ofPath text (Element.enclosingIn text offset) .empty nameAttributes

def label (segment : Segment) : String × Nat :=
  (segment.tag, segment.index)

/-- The segment of an element with its number as the index, at the top level as anywhere. -/
def counted (tags : List Tag) (nameAttributes : List String) (occurrence : Occurrence) : Segment :=
  ofParts occurrence.tag.name (siblingNumber tags occurrence)
    (occurrence.tag.attributes.firstFilled nameAttributes)

variable {tags : List Tag} {nameAttributes : List String} {occurrence : Occurrence}

theorem allAt_start {text : String} (nameAttributes : List String)
    (inStarts : occurrence ∈ starts (Tag.scan text)) :
    allAt text (occurrence.tag.offset + 1) nameAttributes =
      (chain (Tag.scan text) occurrence).map (ofOccurrence (Tag.scan text) nameAttributes) := by
  rcases mem_starts.mp inStarts with ⟨member, start⟩
  rw [allAt, Element.enclosingIn_start inStarts, ofPath_chain member start, filter_unskipped]

theorem exists_of_mem_allAt {text : String} (inStarts : occurrence ∈ starts (Tag.scan text))
    {segment : Segment}
    (member : segment ∈ allAt text (occurrence.tag.offset + 1) nameAttributes) :
    ∃ element ∈ starts (Tag.scan text),
      ofOccurrence (Tag.scan text) nameAttributes element = segment := by
  rw [allAt_start nameAttributes inStarts] at member
  rcases List.mem_map.mp member with ⟨element, inChain, spelled⟩
  exact ⟨element, mem_starts_of_mem_chain inStarts inChain, spelled⟩

theorem index_counted (nameAttributes : List String) (inStarts : occurrence ∈ starts tags) :
    (counted tags nameAttributes occurrence).index = siblingNumber tags occurrence := by
  rcases mem_starts.mp inStarts with ⟨member, start⟩
  exact Nat.max_eq_right (siblingNumber_pos member start)

theorem label_counted (inStarts : occurrence ∈ starts tags) :
    (counted tags nameAttributes occurrence).label = occurrence.label tags := by
  rw [label, index_counted nameAttributes inStarts]
  rfl

/-- The number of an element is its index, except at the top level. -/
theorem map_ofOccurrence_chain (nameAttributes : List String) {outermost : Occurrence}
    {inner : List Occurrence} (split : chain tags occurrence = outermost :: inner) :
    (chain tags occurrence).map (ofOccurrence tags nameAttributes) =
      ofParts outermost.tag.name 1 (outermost.tag.attributes.firstFilled nameAttributes) ::
        inner.map (counted tags nameAttributes) := by
  have first : ofOccurrence tags nameAttributes outermost =
      ofParts outermost.tag.name 1 (outermost.tag.attributes.firstFilled nameAttributes) := by
    rw [ofOccurrence, shownIndex_of_top (parent?_outermost split)]
  have further : ∀ element ∈ inner,
      ofOccurrence tags nameAttributes element = counted tags nameAttributes element := by
    intro element inInner
    rcases List.append_of_mem inInner with ⟨front, back, rfl⟩
    have below : chain tags occurrence = (outermost :: front) ++ element :: back := split
    have above := parent?_of_chain below
    rw [List.getLast?_eq_some_getLast (List.cons_ne_nil _ _)] at above
    rw [ofOccurrence, shownIndex_of_parent above, counted]
  rw [split, List.map_cons, first, List.map_congr_left further]

/-- The labels of a path are those of its elements, but for the outermost number. -/
theorem map_label_allAt {text : String} (nameAttributes : List String)
    (inStarts : occurrence ∈ starts (Tag.scan text)) {outermost : Occurrence}
    {inner : List Occurrence} (split : chain (Tag.scan text) occurrence = outermost :: inner) :
    (allAt text (occurrence.tag.offset + 1) nameAttributes).map label =
      (outermost.tag.name, 1) :: inner.map (Occurrence.label (Tag.scan text)) := by
  have further : ∀ element ∈ inner,
      (label ∘ counted (Tag.scan text) nameAttributes) element =
        element.label (Tag.scan text) := by
    intro element inInner
    apply label_counted
    apply mem_starts_of_mem_chain inStarts
    rw [split]
    exact List.mem_cons_of_mem _ inInner
  rw [allAt_start nameAttributes inStarts, map_ofOccurrence_chain nameAttributes split,
    List.map_cons, List.map_map, List.map_congr_left further]
  rfl

end Segment

namespace Occurrence

/-- The labels of a chain as a path shows them. -/
def shownLabels : List (String × Nat) → List (String × Nat)
  | [] => []
  | (name, _) :: inner => (name, 1) :: inner

/-- The tags and the indexes of a path come from the address of its element alone. -/
theorem shownLabels_address {text : String} {occurrence : Occurrence}
    (nameAttributes : List String) (inStarts : occurrence ∈ starts (Tag.scan text)) :
    shownLabels (address (Tag.scan text) occurrence).reverse =
      (Segment.allAt text (occurrence.tag.offset + 1) nameAttributes).map Segment.label := by
  rcases exists_chain_eq_cons (Tag.scan text) occurrence with ⟨outermost, inner, split⟩
  rw [Segment.map_label_allAt nameAttributes inStarts split, ← map_label_chain, split,
    List.map_cons]
  rfl

end Occurrence

end MarkupPath
