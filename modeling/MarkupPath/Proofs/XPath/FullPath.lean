import MarkupPath.Proofs.XPath.Unnamed

/-!
# Full paths

Full paths are equal as texts only if they show the same tags and indexes, and
these are the address of an element but for its number at the top level. So two
elements have the same full path only if different elements of one name stand
around them at the top level, and the same labels below.
-/

namespace MarkupPath

open Occurrence (starts mem_starts chain address)

namespace XPath

open Text

/-- The label that a piece of a full path shows. -/
def labelOfPiece (piece : List Char) : Option (String × Nat) :=
  (splitBrackets piece).map fun cut => (String.ofList cut.1, Nat.ofDigitChars 10 cut.2 0)

theorem labelOfPiece_write {segment : Segment} (isName : Markup.IsName segment.tag.toList) :
    labelOfPiece (Format.full.stepOf segment).write = some segment.label := by
  have written : (Format.full.stepOf segment).write =
      segment.tag.toList ++ '[' :: (Nat.toDigits 10 segment.index ++ [']']) := rfl
  rw [labelOfPiece, written, splitBrackets_of_brackets isName, Option.map_some,
    Nat.ofDigitChars_ten_toDigits, String.ofList_toList, Segment.label]

theorem splitOn_writePath_full {segments : List Segment}
    (names : ∀ segment ∈ segments, Markup.IsName segment.tag.toList) :
    (Step.writePath (segments.map Format.full.stepOf)).toList.splitOn '/' =
      [] :: (segments.map Format.full.stepOf).map Step.write := by
  rw [Step.toList_writePath]
  apply Step.splitOn_pieces [] _ List.not_mem_nil
  intro piece pieceMem
  rcases List.mem_map.mp pieceMem with ⟨step, stepMem, rfl⟩
  rcases List.mem_map.mp stepMem with ⟨segment, member, rfl⟩
  apply Step.slash_not_mem_write (names segment member)
  intro value named
  exact nomatch named

theorem map_label_of_writePath {segments : List Segment}
    (names : ∀ segment ∈ segments, Markup.IsName segment.tag.toList) :
    (((Step.writePath (segments.map Format.full.stepOf)).toList.splitOn '/').drop 1).map
        labelOfPiece =
      (segments.map Segment.label).map some := by
  have each : ∀ segment ∈ segments,
      (labelOfPiece ∘ Step.write ∘ Format.full.stepOf) segment =
        (some ∘ Segment.label) segment :=
    fun segment member => labelOfPiece_write (names segment member)
  rw [splitOn_writePath_full names, List.drop_one, List.tail_cons, List.map_map, List.map_map,
    List.map_map]
  exact List.map_congr_left each

/-- Full paths are equal only if they show the same tags and indexes. -/
theorem map_label_of_render_full {first second : List Segment}
    (firstNames : ∀ segment ∈ first, Markup.IsName segment.tag.toList)
    (secondNames : ∀ segment ∈ second, Markup.IsName segment.tag.toList)
    (same : Format.full.render? {} first = Format.full.render? {} second) :
    first.map Segment.label = second.map Segment.label := by
  have plain : Format.full ∈ Format.numbered := List.mem_cons_self
  rw [Format.render?_of_numbered plain, Format.render?_of_numbered plain,
    Option.some.injEq] at same
  have labels := map_label_of_writePath firstNames
  rw [same, map_label_of_writePath secondNames] at labels
  exact (List.map_injective_iff.mpr (fun _ _ => Option.some.inj) labels).symm

theorem isName_of_mem_allAt {text : String} {occurrence : Occurrence}
    {nameAttributes : List String} (inStarts : occurrence ∈ starts (Tag.scan text)) :
    ∀ segment ∈ Segment.allAt text (occurrence.tag.offset + 1) nameAttributes,
      Markup.IsName segment.tag.toList := by
  intro segment member
  rcases Segment.exists_of_mem_allAt inStarts member with ⟨element, elementStarts, rfl⟩
  have inAll := Occurrence.mem_all.mp (mem_starts.mp elementStarts).1
  exact Tag.isName_of_mem_scan (List.mem_of_getElem? inAll)

/-- The full paths of two elements are equal if their labels are, but for the outermost number. -/
theorem render_full_start_iff {text : String} {first second : Occurrence}
    (firstStarts : first ∈ starts (Tag.scan text)) (secondStarts : second ∈ starts (Tag.scan text))
    (nameAttributes : List String) :
    Format.full.render? {} (Segment.allAt text (first.tag.offset + 1) nameAttributes) =
        Format.full.render? {} (Segment.allAt text (second.tag.offset + 1) nameAttributes) ↔
      (Segment.allAt text (first.tag.offset + 1) nameAttributes).map Segment.label =
        (Segment.allAt text (second.tag.offset + 1) nameAttributes).map Segment.label := by
  constructor
  · exact map_label_of_render_full (isName_of_mem_allAt firstStarts)
      (isName_of_mem_allAt secondStarts)
  · intro same
    have plain : Format.full ∈ Format.unnamed := List.mem_cons_self
    rcases Format.render?_eq_of_label plain {} same with ⟨path, firstPath, secondPath⟩
    rw [firstPath, secondPath]

/--
Two start tags have the same full path if and only if different elements of the same name stand
around them at the top level, and below these their paths show the same tags and indexes.
-/
theorem render_full_eq_iff {text : String} {first second : Tag} (firstMem : first ∈ Tag.scan text)
    (secondMem : second ∈ Tag.scan text) (firstStart : first.isStartTag = true)
    (secondStart : second.isStartTag = true) (different : first ≠ second)
    (nameAttributes : List String) :
    Format.full.render? {} (Segment.allAt text (first.offset + 1) nameAttributes) =
        Format.full.render? {} (Segment.allAt text (second.offset + 1) nameAttributes) ↔
      ∃ outermost other, (Element.enclosingIn text (first.offset + 1)).head? = some outermost ∧
        (Element.enclosingIn text (second.offset + 1)).head? = some other ∧
        outermost ≠ other ∧ outermost.name = other.name ∧
        (Segment.allAt text (first.offset + 1) nameAttributes).tail.map Segment.label =
          (Segment.allAt text (second.offset + 1) nameAttributes).tail.map Segment.label := by
  rcases Occurrence.exists_mem_starts firstMem firstStart with ⟨one, oneStarts, rfl⟩
  rcases Occurrence.exists_mem_starts secondMem secondStart with ⟨two, twoStarts, rfl⟩
  rcases Occurrence.exists_chain_eq_cons (Tag.scan text) one with ⟨outermost, inner, oneSplit⟩
  rcases Occurrence.exists_chain_eq_cons (Tag.scan text) two with ⟨other, others, twoSplit⟩
  rw [render_full_start_iff oneStarts twoStarts, List.map_tail, List.map_tail,
    Segment.map_label_allAt nameAttributes oneStarts oneSplit,
    Segment.map_label_allAt nameAttributes twoStarts twoSplit,
    Element.enclosingIn_start oneStarts, Element.enclosingIn_start twoStarts, oneSplit, twoSplit]
  simp only [List.map_cons, List.head?_cons, List.tail_cons, List.cons.injEq, Prod.mk.injEq,
    and_true, Option.some.injEq]
  constructor
  · rintro ⟨sameName, sameInner⟩
    refine ⟨_, _, rfl, rfl, ?_, sameName, sameInner⟩
    -- With the outermost element in common, the two have the same address.
    intro sameElement
    have outermostStarts := Occurrence.outermost_mem_starts oneStarts oneSplit
    have otherStarts := Occurrence.outermost_mem_starts twoStarts twoSplit
    have sameOutermost : outermost = other :=
      Tag.eq_of_start_eq (mem_starts.mp outermostStarts).1 (mem_starts.mp otherStarts).1
        (congrArg Element.start sameElement)
    have sameAddress : address (Tag.scan text) one = address (Tag.scan text) two := by
      rw [← List.reverse_inj, ← Occurrence.map_label_chain, ← Occurrence.map_label_chain, oneSplit,
        twoSplit, List.map_cons, List.map_cons, sameOutermost, sameInner]
    exact different (congrArg Occurrence.tag
      (Occurrence.eq_of_address_eq oneStarts twoStarts sameAddress))
  · rintro ⟨-, -, rfl, rfl, -, sameName, sameInner⟩
    exact ⟨sameName, sameInner⟩

theorem render_full_ne_of_common_top :
    ∃ first ∈ Tag.scan "<a></c><b/><b></a><b>", ∃ second ∈ Tag.scan "<a></c><b/><b></a><b>",
      first.isStartTag = true ∧ second.isStartTag = true ∧ first ≠ second ∧
        Format.full.render? {} (Segment.allAt "<a></c><b/><b></a><b>" (first.offset + 1) []) ≠
          Format.full.render? {} (Segment.allAt "<a></c><b/><b></a><b>" (second.offset + 1) []) := by
  have firstMem : ⟨.selfClosing, "b", NameTable.empty, ⟨7, 0, 7⟩, "<b/>"⟩ ∈
      Tag.scan "<a></c><b/><b></a><b>" := by
    decide +kernel
  have secondMem : ⟨.opening, "b", NameTable.empty, ⟨18, 0, 18⟩, "<b>"⟩ ∈
      Tag.scan "<a></c><b/><b></a><b>" := by
    decide +kernel
  refine ⟨_, firstMem, _, secondMem, rfl, rfl, by decide, ?_⟩
  intro same
  have common : (Element.enclosingIn "<a></c><b/><b></a><b>" 8).head? =
      (Element.enclosingIn "<a></c><b/><b></a><b>" 19).head? := by
    decide +kernel
  rcases (render_full_eq_iff firstMem secondMem rfl rfl (by decide) []).mp same with
    ⟨outermost, other, isFirst, isSecond, apart, -⟩
  exact apart (Option.some.inj (isFirst.symm.trans (common.trans isSecond)))

/-- Elements of one name at the top level have one full path. -/
theorem not_forall_render_full_ne :
    ¬∀ first ∈ Tag.scan "<a/><a/>", ∀ second ∈ Tag.scan "<a/><a/>",
      first.isStartTag = true → second.isStartTag = true → first ≠ second →
        Format.full.render? {} (Segment.allAt "<a/><a/>" (first.offset + 1) []) ≠
          Format.full.render? {} (Segment.allAt "<a/><a/>" (second.offset + 1) []) := by
  intro apart
  have firstMem : ⟨.selfClosing, "a", NameTable.empty, ⟨0, 0, 0⟩, "<a/>"⟩ ∈
      Tag.scan "<a/><a/>" := by
    decide +kernel
  have secondMem : ⟨.selfClosing, "a", NameTable.empty, ⟨4, 0, 4⟩, "<a/>"⟩ ∈
      Tag.scan "<a/><a/>" := by
    decide +kernel
  have same : Format.full.render? {} (Segment.allAt "<a/><a/>" 1 []) =
      Format.full.render? {} (Segment.allAt "<a/><a/>" 5 []) := by
    decide +kernel
  exact apart _ firstMem _ secondMem rfl rfl (by decide) same

end XPath

end MarkupPath
