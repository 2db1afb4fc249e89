import MarkupPath.Proofs.Element.Segment
import MarkupPath.Proofs.XPath.Locators
import MarkupPath.Proofs.XPath.Search

/-!
# From a start tag to its path and back

The path of a start tag in one of the formats without names shows, for every
element from the outermost to that of the tag, its name and its number, so it
leads to no other start tag. But at the top level, where elements have no parent
to be counted under, every element is shown with the index one. So the way back
ends at the tag if its outermost element is in fact the first of its name there,
and otherwise it leads somewhere else or nowhere.
-/

namespace MarkupPath

open Occurrence (all chain siblingNumber topLevel shownIndex)

/-- The element is the first of its name at the top level. -/
def Element.IsFirstAtTop (tags : List Tag) (element : Element) : Prop :=
  ∀ other ∈ topLevel tags, other.tag.name = element.name → element.offset ≤ other.tag.offset

instance (tags : List Tag) : DecidablePred (Element.IsFirstAtTop tags) :=
  fun element => inferInstanceAs (Decidable (∀ other ∈ topLevel tags,
    other.tag.name = element.name → element.offset ≤ other.tag.offset))

namespace Attributes

theorem filled_of_firstFilled {attributes : Attributes} {candidates : List String} {value : String}
    (found : attributes.firstFilled candidates = some value) :
    value.toList.all Text.isBlank = false := by
  have filled := List.find?_some found
  rwa [Bool.not_eq_true'] at filled

end Attributes

namespace Segment

/-- The segments of a text's elements can be read, and no text in memory is longer. -/
theorem isReadable_ofOccurrence {text : String} (bound : text.utf8ByteSize < UInt64.size)
    {occurrence : Occurrence} (member : occurrence ∈ all (Tag.scan text))
    (nameAttributes : List String) :
    (ofOccurrence (Tag.scan text) nameAttributes occurrence).IsReadable := by
  refine ⟨?_, ?_, fun name found => Attributes.filled_of_firstFilled found⟩
  · exact Tag.isName_of_mem_scan (List.mem_of_getElem? (Occurrence.mem_all.mp member))
  · have number_le := Occurrence.siblingNumber_le (Tag.scan text) occurrence
    have tags_le := Tag.length_scan_le text
    have one_lt : 1 < UInt64.size := by decide
    simp only [ofOccurrence, ofParts, shownIndex]
    split <;> omega

end Segment

namespace XPath

namespace Format

/-- The formats that show no names. -/
def numbered : List Format :=
  [.full, .compact]

theorem shownName?_of_numbered {format : Format} (plain : format ∈ numbered) (segment : Segment) :
    format.shownName? segment = none := by
  cases format <;> first | rfl | exact absurd plain (by decide)

theorem render?_of_numbered {format : Format} (plain : format ∈ numbered) (options : RenderOptions)
    (segments : List Segment) :
    format.render? options segments = some (Step.writePath (segments.map format.stepOf)) := by
  have locator : format ∈ locators := by
    cases format <;> first | decide | exact absurd plain (by decide)
  have written : format.render? {} segments =
      some (Step.writePath (segments.map format.stepOf)) :=
    render?_of_locator locator rfl segments
  cases format <;> first | exact written | exact absurd plain (by decide)

/-- The step that is written for a segment without its name asks for its tag and its index. -/
theorem accepts_stepOf_iff {format : Format} (plain : format ∈ numbered) (segment : Segment)
    (nameAttributes : List String) (tag : Tag) (number : Nat) :
    (format.stepOf segment).accepts nameAttributes tag number = true ↔
      tag.name = segment.tag ∧ number = segment.index := by
  have positive := segment.index_pos
  simp only [numbered, List.mem_cons, List.not_mem_nil, or_false] at plain
  rw [Step.accepts_iff]
  rcases plain with rfl | rfl
  · rfl
  · by_cases high : 1 < segment.index
    · simp [stepOf, shownName?, shownIndex?, high, Step.ofParts]
    · have one : segment.index = 1 := by omega
      simp [stepOf, shownName?, shownIndex?, one, Step.ofParts]

end Format

/-- The steps that are written for the elements from the outermost to that of an occurrence. -/
def Format.wayTo (format : Format) (tags : List Tag) (nameAttributes : List String)
    (occurrence : Occurrence) : List Step :=
  ((chain tags occurrence).map (Segment.ofOccurrence tags nameAttributes)).map format.stepOf

open Format (numbered)

variable {format : Format} {tags : List Tag} {nameAttributes : List String}
  {target occurrence : Occurrence}

theorem leadsTo_wayTo_iff (plain : format ∈ numbered) :
    LeadsTo tags (format.wayTo tags nameAttributes target) nameAttributes occurrence ↔
      List.Forall₂ (fun goal member => member.tag.name = goal.tag.name ∧
        siblingNumber tags member = max 1 (shownIndex tags goal))
          (chain tags target) (chain tags occurrence) := by
  rw [LeadsTo, Format.wayTo, List.forall₂_map_left_iff, List.forall₂_map_left_iff]
  simp only [Step.acceptsIn, Format.accepts_stepOf_iff plain]
  rfl

/-- The steps that are written for an element lead to one element at most. -/
theorem eq_of_leadsTo (plain : format ∈ numbered) {first second : Occurrence}
    (firstMem : first ∈ all tags) (secondMem : second ∈ all tags)
    (firstStart : first.tag.isStartTag = true) (secondStart : second.tag.isStartTag = true)
    (firstLed : LeadsTo tags (format.wayTo tags nameAttributes target) nameAttributes first)
    (secondLed : LeadsTo tags (format.wayTo tags nameAttributes target) nameAttributes second) :
    first = second := by
  rw [leadsTo_wayTo_iff plain] at firstLed secondLed
  have alike : Occurrence.Alike tags first second := by
    rw [Occurrence.Alike, ← Occurrence.reverse_chain, ← Occurrence.reverse_chain,
      List.forall₂_reverse_iff]
    refine forall₂_of_common ?_ firstLed secondLed
    intro goal one other oneAlike otherAlike
    exact ⟨oneAlike.1.trans otherAlike.1.symm, oneAlike.2.trans otherAlike.2.symm⟩
  exact alike.eq firstMem secondMem firstStart secondStart

/-- The steps that are written for an element lead to it if the outermost one is numbered one. -/
theorem leadsTo_self_iff (plain : format ∈ numbered) (member : target ∈ all tags)
    (start : target.tag.isStartTag = true) {outermost : Occurrence} {inner : List Occurrence}
    (split : chain tags target = outermost :: inner) :
    LeadsTo tags (format.wayTo tags nameAttributes target) nameAttributes target ↔
      siblingNumber tags outermost = 1 := by
  have inChain : outermost ∈ chain tags target := split ▸ List.mem_cons_self
  have atTop := (Occurrence.top_iff_of_chain split inChain).mpr rfl
  rw [leadsTo_wayTo_iff plain, List.forall₂_same]
  constructor
  · intro each
    rw [(each outermost inChain).2, Occurrence.shownIndex_of_top atTop]
    rfl
  · intro one element elementIn
    refine ⟨rfl, ?_⟩
    cases above : Occurrence.parent? tags element.place with
    | none =>
        rw [(Occurrence.top_iff_of_chain split elementIn).mp above, one,
          Occurrence.shownIndex_of_top atTop, Nat.max_self]
    | some parent =>
        rcases Occurrence.mem_all_of_mem_lineage member start
          (Occurrence.mem_lineage_of_mem_chain elementIn) with ⟨elementMem, elementStart⟩
        have positive := Occurrence.siblingNumber_pos elementMem elementStart
        rw [Occurrence.shownIndex_of_parent above, Nat.max_eq_right positive]

/-- An element at the top level has the number one if it is the first of its name there. -/
theorem isFirstAtTop_iff {text : String} {outermost : Occurrence}
    (top : outermost ∈ topLevel (Tag.scan text)) :
    Element.IsFirstAtTop (Tag.scan text) (Element.ofOccurrence outermost) ↔
      siblingNumber (Tag.scan text) outermost = 1 := by
  rcases Occurrence.mem_topLevel.mp top with ⟨member, start, atTop⟩
  rw [Occurrence.siblingNumber_eq_one_iff member start, atTop]
  constructor
  · intro first other otherMem otherStart sameName otherTop
    have offset_le := first other (Occurrence.mem_topLevel.mpr ⟨otherMem, otherStart, otherTop⟩)
      sameName
    exact (Tag.offset_le_iff_place_le member otherMem).mp offset_le
  · intro first other inTop sameName
    rcases Occurrence.mem_topLevel.mp inTop with ⟨otherMem, otherStart, otherTop⟩
    have place_le := first other otherMem otherStart sameName otherTop
    exact (Tag.offset_le_iff_place_le member otherMem).mpr place_le

theorem find_wayTo_iff {text : String} (plain : format ∈ numbered)
    (member : target ∈ all (Tag.scan text)) (start : target.tag.isStartTag = true) :
    find (Tag.scan text) (format.wayTo (Tag.scan text) nameAttributes target) nameAttributes =
        some target.tag.start ↔
      LeadsTo (Tag.scan text) (format.wayTo (Tag.scan text) nameAttributes target) nameAttributes
        target := by
  rw [find_eq, Option.map_eq_some_iff]
  constructor
  · rintro ⟨found, first, sameStart⟩
    have led := List.find?_some first
    rw [decide_eq_true_eq] at led
    rw [Tag.eq_of_start_eq (List.mem_of_find?_eq_some first) member sameStart] at led
    exact led.2
  · intro led
    refine ⟨target, ?_, rfl⟩
    cases first : firstLed? (Tag.scan text)
        (format.wayTo (Tag.scan text) nameAttributes target) nameAttributes with
    | none =>
        have missed := List.find?_eq_none.mp first target member
        rw [decide_eq_true_eq] at missed
        exact absurd ⟨start, led⟩ missed
    | some found =>
        have foundLed := List.find?_some first
        rw [decide_eq_true_eq] at foundLed
        rw [eq_of_leadsTo plain (List.mem_of_find?_eq_some first) member foundLed.1 start
          foundLed.2 led]

/-- The rendered path of a start tag is read as the way to its element. -/
theorem exists_render_readPath {text : String} (bound : text.utf8ByteSize < UInt64.size)
    {before after : List Tag} {tag : Tag} (found : Tag.scan text = before ++ tag :: after)
    (start : tag.isStartTag = true) (plain : format ∈ numbered) (options : RenderOptions)
    (nameAttributes : List String) :
    ∃ path, format.render? options (Segment.ofPath text
        (Element.enclosingIn text (tag.offset + 1)) .empty nameAttributes) = some path ∧
      Step.readPath path =
        format.wayTo (Tag.scan text) nameAttributes ⟨tag, before.length⟩ := by
  have inScan : tag ∈ Tag.scan text := by simp [found]
  have length := Tag.offset_add_two_le_stop inScan
  have within : tag.offset + 1 < tag.stop := by omega
  have member := Occurrence.mem_all_of_split found
  rw [Segment.ofPath_of_startTag found start (Nat.le_succ tag.offset) within,
    Segment.filter_unskipped, Format.render?_of_numbered plain]
  refine ⟨_, rfl, Format.readPath_writePath_stepOf ?_ ?_⟩
  · intro segment segmentMem
    rcases List.mem_map.mp segmentMem with ⟨element, inChain, rfl⟩
    rcases Occurrence.mem_all_of_mem_lineage member start
      (Occurrence.mem_lineage_of_mem_chain inChain) with ⟨elementMem, -⟩
    exact Segment.isReadable_ofOccurrence bound elementMem nameAttributes
  · intro segment _ name named
    rw [Format.shownName?_of_numbered plain] at named
    exact nomatch named

/-- The way to an element leads back to it if its outermost element is the first of its name. -/
theorem find_wayTo_iff_isFirstAtTop {text : String} (nameAttributes : List String)
    (plain : format ∈ numbered)
    (member : target ∈ all (Tag.scan text)) (start : target.tag.isStartTag = true)
    {outermost : Occurrence} {inner : List Occurrence}
    (split : chain (Tag.scan text) target = outermost :: inner) :
    find (Tag.scan text) (format.wayTo (Tag.scan text) nameAttributes target) nameAttributes =
        some target.tag.start ↔
      (Element.ofOccurrence outermost).IsFirstAtTop (Tag.scan text) := by
  have top := Occurrence.mem_topLevel_of_chain member start split
  rw [isFirstAtTop_iff top, find_wayTo_iff plain member start,
    leadsTo_self_iff plain member start split]

theorem isFirstAtTop_of_single {text : String} {outermost : Occurrence}
    (top : outermost ∈ topLevel (Tag.scan text)) (single : (topLevel (Tag.scan text)).length = 1) :
    (Element.ofOccurrence outermost).IsFirstAtTop (Tag.scan text) := by
  intro other otherMem sameName
  rcases List.length_eq_one_iff.mp single with ⟨only, alone⟩
  rw [alone, List.mem_singleton] at otherMem top
  rw [otherMem, top]
  exact Nat.le_refl _

/--
The path of a start tag in a format without names leads back to the tag if and only if the outermost
element of the path is the first of its name at the top level. No text in memory is as long as the
bound.
-/
theorem find_rendered_iff {text : String} (bound : text.utf8ByteSize < UInt64.size) {tag : Tag}
    (member : tag ∈ Tag.scan text) (start : tag.isStartTag = true) {format : Format}
    (plain : format ∈ numbered) (options : RenderOptions) (nameAttributes : List String) :
    ∃ path, format.render? options (Segment.ofPath text
        (Element.enclosingIn text (tag.offset + 1)) .empty nameAttributes) = some path ∧
      (find (Tag.scan text) (Step.readPath path) nameAttributes = some tag.start ↔
        ∃ outermost, (Element.enclosingIn text (tag.offset + 1)).head? = some outermost ∧
          outermost.IsFirstAtTop (Tag.scan text)) ∧
      ((topLevel (Tag.scan text)).length = 1 →
        find (Tag.scan text) (Step.readPath path) nameAttributes = some tag.start) := by
  rcases List.append_of_mem member with ⟨before, after, found⟩
  rcases exists_render_readPath bound found start plain options nameAttributes with
    ⟨path, rendered, read⟩
  have length := Tag.offset_add_two_le_stop member
  have within : tag.offset + 1 < tag.stop := by omega
  have targetMem := Occurrence.mem_all_of_split found
  rcases List.exists_cons_of_ne_nil (l := chain (Tag.scan text) ⟨tag, before.length⟩)
    (by simp [chain]) with ⟨outermost, inner, split⟩
  have leadsBack := find_wayTo_iff_isFirstAtTop nameAttributes plain targetMem start split
  refine ⟨path, rendered, ?_, ?_⟩
  · rw [read, leadsBack, Element.enclosingIn_of_startTag found start (Nat.le_succ tag.offset) within,
      split]
    simp
  · intro single
    rw [read, leadsBack]
    exact isFirstAtTop_of_single (Occurrence.mem_topLevel_of_chain targetMem start split) single

theorem find_rendered_second_child :
    ∃ tag ∈ Tag.scan "<a><b></c></b><b/></a><a/>", tag.isStartTag = true ∧
      ∃ path, Format.full.render? {} (Segment.ofPath "<a><b></c></b><b/></a><a/>"
          (Element.enclosingIn "<a><b></c></b><b/></a><a/>" (tag.offset + 1)) .empty []) =
            some path ∧
        find (Tag.scan "<a><b></c></b><b/></a><a/>") (Step.readPath path) [] =
          some ⟨14, 0, 14⟩ := by
  have member : ⟨.selfClosing, "b", NameTable.empty, ⟨14, 0, 14⟩, "<b/>"⟩ ∈
      Tag.scan "<a><b></c></b><b/></a><a/>" := by
    decide +kernel
  refine ⟨_, member, rfl, ?_⟩
  have plain : Format.full ∈ numbered := by decide
  rcases find_rendered_iff (by decide +kernel) member rfl plain {} [] with
    ⟨path, rendered, back, -⟩
  refine ⟨path, rendered, back.mpr ?_⟩
  refine ⟨Element.ofTag ⟨.opening, "a", NameTable.empty, .origin, "<a>"⟩, ?_, ?_⟩
  · decide +kernel
  · decide +kernel

end XPath

end MarkupPath
