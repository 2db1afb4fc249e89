import MarkupPath.Proofs.Nesting.Outline
import MarkupPath.Proofs.XPath.Unnamed

/-!
# Only structure matters

Paths without names see nothing of a text but its outline. Where the outlines of
two texts agree up to some start tag, the path of this tag is the same in both,
and a path leads to it in one of them if and only if it does in the other. White
space, character data, attributes, closing tags without effect, the way in which
an empty element is written and all that follows the tag make no difference.
-/

namespace MarkupPath

open Occurrence (starts mem_starts address outline)

namespace Occurrence

theorem exists_getElem?_starts {tags : List Tag} {tag : Tag} {count : Nat}
    (found : (tags.filter (·.isStartTag))[count]? = some tag) :
    ∃ occurrence, (starts tags)[count]? = some occurrence ∧ occurrence.tag = tag := by
  rwa [← map_tag_starts, List.getElem?_map, Option.map_eq_some_iff] at found

/-- The start tags before one of them are those with a smaller place. -/
theorem mem_take_starts_iff {tags : List Tag} {occurrence other : Occurrence} {count : Nat}
    (found : (starts tags)[count]? = some occurrence) :
    other ∈ (starts tags).take count ↔ other ∈ starts tags ∧ other.place < occurrence.place := by
  rcases List.getElem?_eq_some_iff.mp found with ⟨bound, rfl⟩
  have ordered := List.pairwise_iff_getElem.mp (starts_pairwise tags)
  rw [List.mem_take_iff_getElem]
  constructor
  · rintro ⟨index, indexBound, rfl⟩
    rw [Nat.lt_min] at indexBound
    exact ⟨List.getElem_mem _, ordered _ _ indexBound.2 bound indexBound.1⟩
  · rintro ⟨inStarts, order⟩
    rcases List.getElem_of_mem inStarts with ⟨index, indexBound, rfl⟩
    refine ⟨index, ?_, rfl⟩
    rw [Nat.lt_min]
    refine ⟨?_, indexBound⟩
    apply Nat.lt_of_not_le
    intro notBefore
    rcases Nat.lt_or_eq_of_le notBefore with behind | rfl
    · have later := ordered _ _ bound indexBound behind
      omega
    · exact Nat.lt_irrefl _ order

end Occurrence

namespace XPath

/--
A path without names leads to a start tag if it spells the address of the tag, and no start tag
before it has this address.
-/
theorem locate_start_iff {text path : String} {settings : Settings} {occurrence : Occurrence}
    {count : Nat} (unnamed : ∀ step ∈ Step.readPath path, step.name? = none)
    (found : (starts (Tag.scan text))[count]? = some occurrence) :
    Query.locate text path settings = .ok occurrence.tag.start ↔
      address (Tag.scan text) occurrence = ((Step.readPath path).map Step.label).reverse ∧
        ((Step.readPath path).map Step.label).reverse ∉
          ((starts (Tag.scan text)).map (address (Tag.scan text))).take count := by
  have inStarts := List.mem_of_getElem? found
  rw [Query.locate_eq_ok_start_iff inStarts, firstLed?_eq_some_iff, leadsTo_iff_address unnamed,
    ← List.map_take]
  simp only [leadsTo_iff_address unnamed, List.mem_map, not_exists, not_and,
    Occurrence.mem_take_starts_iff found, and_imp]
  constructor
  · rintro ⟨-, spelled, first⟩
    exact ⟨spelled, first⟩
  · rintro ⟨spelled, first⟩
    exact ⟨inStarts, spelled, first⟩

/--
Let the outlines of two texts have a common beginning with more than `count` starts of elements, and
take the start tag that has `count` others before it, in each of the texts. The formats that write
no names give them the same path, and a path without names leads to one of them in its text if and
only if it leads to the other in the other text.
-/
theorem paths_eq_and_locate_iff_of_outline {text twinText : String} {shared : List Mark}
    (beginning : shared <+: outline (Tag.scan text))
    (twinBeginning : shared <+: outline (Tag.scan twinText)) {count : Nat}
    (reached : count < shared.countP Mark.isStart) {tag twin : Tag}
    (found : ((Tag.scan text).filter (·.isStartTag))[count]? = some tag)
    (twinFound : ((Tag.scan twinText).filter (·.isStartTag))[count]? = some twin)
    (nameAttributes : List String) :
    (∀ format ∈ Format.unnamed, ∀ options, ∃ path,
      format.render? options (Segment.allAt text (tag.offset + 1) nameAttributes) = some path ∧
      format.render? options (Segment.allAt twinText (twin.offset + 1) nameAttributes) =
        some path) ∧
    ∀ path settings, (∀ step ∈ Step.readPath path, step.name? = none) →
      (Query.locate text path settings = .ok tag.start ↔
        Query.locate twinText path settings = .ok twin.start) := by
  rcases Occurrence.exists_getElem?_starts found with ⟨occurrence, occurrenceAt, rfl⟩
  rcases Occurrence.exists_getElem?_starts twinFound with ⟨other, otherAt, rfl⟩
  have sameEarlier := Occurrence.take_map_address_eq beginning twinBeginning (Nat.le_of_lt reached)
  have sameAddress : address (Tag.scan text) occurrence = address (Tag.scan twinText) other := by
    have upTo := Occurrence.take_map_address_eq beginning twinBeginning reached
    have last := congrArg (·[count]?) upTo
    simpa [List.getElem?_take_of_lt, occurrenceAt, otherAt] using last
  constructor
  · intro format plain options
    apply Format.render?_eq_of_label plain
    rw [← Occurrence.shownLabels_address nameAttributes (List.mem_of_getElem? occurrenceAt),
      ← Occurrence.shownLabels_address nameAttributes (List.mem_of_getElem? otherAt), sameAddress]
  · intro path settings unnamed
    rw [locate_start_iff unnamed occurrenceAt, locate_start_iff unnamed otherAt, sameAddress,
      sameEarlier]

theorem paths_eq_and_locate_iff_of_respelled :
    (∃ path, Format.full.render? {} (Segment.allAt "<a><b/><b>" 8 []) = some path ∧
      Format.full.render? {} (Segment.allAt "<a k='>'> x </c><b></b ><b/></a>" 25 []) =
        some path) ∧
    (Query.locate "<a><b/><b>" "/a/b[2]" {} = .ok ⟨7, 0, 7⟩ ↔
      Query.locate "<a k='>'> x </c><b></b ><b/></a>" "/a/b[2]" {} = .ok ⟨24, 0, 24⟩) := by
  have beginning : [.start "a", .start "b", .stop "b", .start "b"] <+:
      outline (Tag.scan "<a><b/><b>") := by
    decide +kernel
  have twinBeginning : [.start "a", .start "b", .stop "b", .start "b"] <+:
      outline (Tag.scan "<a k='>'> x </c><b></b ><b/></a>") := by
    decide +kernel
  have found : ((Tag.scan "<a><b/><b>").filter (·.isStartTag))[2]? =
      some ⟨.opening, "b", NameTable.empty, ⟨7, 0, 7⟩, "<b>"⟩ := by
    decide +kernel
  have twinFound :
      ((Tag.scan "<a k='>'> x </c><b></b ><b/></a>").filter (·.isStartTag))[2]? =
        some ⟨.selfClosing, "b", NameTable.empty, ⟨24, 0, 24⟩, "<b/>"⟩ := by
    decide +kernel
  rcases paths_eq_and_locate_iff_of_outline beginning twinBeginning (by decide) found twinFound []
    with ⟨samePaths, sameFound⟩
  refine ⟨samePaths .full (by decide) {}, sameFound "/a/b[2]" {} ?_⟩
  decide +kernel

end XPath

end MarkupPath
