import MarkupPath.Proofs.Element.Labels
import MarkupPath.Proofs.XPath.Location

/-!
# Paths with names

A path with names shows the name of an element where it has one, and otherwise
its index. Names need not be unique, so the path of an element may also describe
others. It leads to the first element that it describes, which is never behind
the one whose path it is. At the top level an index says nothing, so an element
without a name has to be the first of its tag there.
-/

namespace MarkupPath

open Occurrence (starts mem_starts chain siblingNumber)

namespace Segment

/-- What a path with names shows of a segment is true of the other one. -/
def Describes (segment other : Segment) : Prop :=
  other.tag = segment.tag ∧
    match segment.name with
    | some name => other.name = some name
    | none => other.index = segment.index

theorem describes_self (segment : Segment) : segment.Describes segment := by
  refine ⟨rfl, ?_⟩
  cases named : segment.name with
  | some name => exact rfl
  | none => exact rfl

end Segment

namespace XPath

namespace Format

/-- The formats that show the names of elements and can be read back. -/
def naming : List Format :=
  [.namedFull, .namedCompact]

theorem mem_naming {format : Format} :
    format ∈ naming ↔ format = .namedFull ∨ format = .namedCompact := by
  simp [naming]

theorem mem_locators_of_naming {format : Format} (names : format ∈ naming) :
    format ∈ locators := by
  rcases mem_naming.mp names with rfl | rfl
  · decide
  · decide

theorem stepOf_of_name {format : Format} (names : format ∈ naming) {segment : Segment}
    {name : String} (named : segment.name = some name) :
    format.stepOf segment = ⟨segment.tag, .name name⟩ := by
  rcases mem_naming.mp names with rfl | rfl
  · simp [stepOf, shownName?, named, Step.ofParts]
  · simp [stepOf, shownName?, named, Step.ofParts]

theorem exists_stepOf_of_unnamed {format : Format} (names : format ∈ naming) {segment : Segment}
    (unnamed : segment.name = none) :
    ∃ plain ∈ numbered, format.stepOf segment = plain.stepOf segment := by
  rcases mem_naming.mp names with rfl | rfl
  · exact ⟨.full, by decide, by simp [stepOf, shownName?, unnamed, shownIndex?]⟩
  · exact ⟨.compact, by decide, by simp [stepOf, shownName?, unnamed, shownIndex?]⟩

end Format

open Format (naming)

variable {tags : List Tag} {nameAttributes : List String} {occurrence : Occurrence}
  {format : Format}

theorem acceptsIn_stepOf_iff (names : format ∈ naming) (goal : Segment)
    (inStarts : occurrence ∈ starts tags) :
    (format.stepOf goal).acceptsIn tags nameAttributes occurrence = true ↔
      goal.Describes (Segment.counted tags nameAttributes occurrence) := by
  cases named : goal.name with
  | some name =>
      rw [Format.stepOf_of_name names named, Step.acceptsIn, Step.accepts_iff, Segment.Describes,
        named]
      rfl
  | none =>
      rcases Format.exists_stepOf_of_unnamed names named with ⟨plain, isPlain, same⟩
      rw [same, Step.acceptsIn, Format.accepts_stepOf_iff isPlain, Segment.Describes, named,
        Segment.index_counted nameAttributes inStarts]
      rfl

/-- Steps with names lead to the elements that they describe by their numbers. -/
theorem leadsTo_iff_describes (names : format ∈ naming) (goals : List Segment)
    (inStarts : occurrence ∈ starts tags) :
    LeadsTo tags (goals.map format.stepOf) nameAttributes occurrence ↔
      List.Forall₂ Segment.Describes goals
        ((chain tags occurrence).map (Segment.counted tags nameAttributes)) := by
  rw [LeadsTo, List.forall₂_map_left_iff, List.forall₂_map_right_iff]
  apply forall₂_iff_of_mem
  intro goal _ member inChain
  exact acceptsIn_stepOf_iff names goal (Occurrence.mem_starts_of_mem_chain inStarts inChain)

/-- At the top level a number has to be one, where an index always is. -/
theorem describes_counted_iff {goal : Segment} (one : goal.index = 1)
    (inStarts : occurrence ∈ starts tags) :
    goal.Describes (Segment.counted tags nameAttributes occurrence) ↔
      goal.Describes (Segment.ofParts occurrence.tag.name 1
        (occurrence.tag.attributes.firstFilled nameAttributes)) ∧
        (goal.name = none → siblingNumber tags occurrence = 1) := by
  have index := Segment.index_counted nameAttributes inStarts
  cases named : goal.name with
  | some name =>
      simp only [Segment.Describes, named, reduceCtorEq, false_implies, and_true]
      rfl
  | none =>
      simp only [Segment.Describes, named, index, one, true_implies]
      constructor
      · rintro ⟨sameTag, number⟩
        exact ⟨⟨sameTag, rfl⟩, number⟩
      · rintro ⟨⟨sameTag, -⟩, number⟩
        exact ⟨sameTag, number⟩

/-- Steps with names lead to the elements whose paths they describe, if the outermost is counted. -/
theorem leadsTo_iff_allAt (names : format ∈ naming) {text : String} {goal : Segment}
    (one : goal.index = 1) (goals : List Segment) (inStarts : occurrence ∈ starts (Tag.scan text))
    {outermost : Occurrence} {inner : List Occurrence}
    (split : chain (Tag.scan text) occurrence = outermost :: inner) :
    LeadsTo (Tag.scan text) ((goal :: goals).map format.stepOf) nameAttributes occurrence ↔
      List.Forall₂ Segment.Describes (goal :: goals)
        (Segment.allAt text (occurrence.tag.offset + 1) nameAttributes) ∧
      (goal.name = none → siblingNumber (Tag.scan text) outermost = 1) := by
  have outermostStarts := Occurrence.outermost_mem_starts inStarts split
  rw [leadsTo_iff_describes names _ inStarts, Segment.allAt_start _ inStarts,
    Segment.map_ofOccurrence_chain _ split, split, List.map_cons, List.forall₂_cons,
    List.forall₂_cons, describes_counted_iff one outermostStarts, and_right_comm]

theorem exists_render_readPath_naming {text : String} (bound : text.utf8ByteSize < UInt64.size)
    (inStarts : occurrence ∈ starts (Tag.scan text)) (names : format ∈ naming)
    {options : RenderOptions} (whole : options.nameOnly = false)
    (slashless : ∀ segment ∈ Segment.allAt text (occurrence.tag.offset + 1) nameAttributes,
      ∀ name, segment.name = some name → '/' ∉ name.toList) :
    ∃ path, format.render? options
        (Segment.allAt text (occurrence.tag.offset + 1) nameAttributes) = some path ∧
      Step.readPath path =
        (Segment.allAt text (occurrence.tag.offset + 1) nameAttributes).map format.stepOf := by
  rw [Format.render?_of_locator (Format.mem_locators_of_naming names) whole]
  refine ⟨_, rfl, Format.readPath_writePath_stepOf ?_ ?_⟩
  · intro segment member
    rcases Segment.exists_of_mem_allAt inStarts member with ⟨element, elementStarts, rfl⟩
    exact Segment.isReadable_ofOccurrence bound (mem_starts.mp elementStarts).1 nameAttributes
  · intro segment member name shown
    exact slashless segment member name (Format.name_of_shownName? shown)

/-- Two elements whose outermost elements have one tag, where only that of the first is the first. -/
theorem place_lt_of_first_outermost {first second outermost other : Occurrence}
    {inner others : List Occurrence} (firstStarts : first ∈ starts tags)
    (secondStarts : second ∈ starts tags) (firstSplit : chain tags first = outermost :: inner)
    (secondSplit : chain tags second = other :: others)
    (sameName : other.tag.name = outermost.tag.name) (one : siblingNumber tags outermost = 1)
    (more : siblingNumber tags other ≠ 1) : first.place < second.place := by
  rcases mem_starts.mp (Occurrence.outermost_mem_starts firstStarts firstSplit) with
    ⟨outermostMem, outermostStart⟩
  rcases mem_starts.mp (Occurrence.outermost_mem_starts secondStarts secondSplit) with
    ⟨otherMem, otherStart⟩
  have together : Occurrence.parent? tags other.place = Occurrence.parent? tags outermost.place :=
    (Occurrence.parent?_outermost secondSplit).trans (Occurrence.parent?_outermost firstSplit).symm
  have place_le := (Occurrence.siblingNumber_eq_one_iff outermostMem outermostStart).mp one other
    otherMem otherStart sameName together
  have apart : outermost.place ≠ other.place := by
    intro samePlace
    rw [Occurrence.eq_of_place_eq outermostMem otherMem samePlace] at one
    exact more one
  exact Occurrence.place_lt_of_outermost secondStarts firstSplit secondSplit
    (Nat.lt_of_le_of_ne place_le apart)

theorem name_of_describes {text : String} {goal : Segment} {goals : List Segment}
    (inStarts : occurrence ∈ starts (Tag.scan text)) {outermost : Occurrence}
    {inner : List Occurrence} (split : chain (Tag.scan text) occurrence = outermost :: inner)
    (described : List.Forall₂ Segment.Describes (goal :: goals)
      (Segment.allAt text (occurrence.tag.offset + 1) nameAttributes)) :
    outermost.tag.name = goal.tag := by
  rw [Segment.allAt_start _ inStarts, Segment.map_ofOccurrence_chain _ split,
    List.forall₂_cons] at described
  exact described.1.1

/-- The element that named steps lead to is the first one that they describe. -/
theorem not_describes_of_earlier (names : format ∈ naming) {text : String} {goal : Segment}
    (one : goal.index = 1) {goals : List Segment} {found earlier : Occurrence}
    (first : firstLed? (Tag.scan text) ((goal :: goals).map format.stepOf) nameAttributes =
      some found)
    (earlierStarts : earlier ∈ starts (Tag.scan text)) (order : earlier.place < found.place) :
    ¬List.Forall₂ Segment.Describes (goal :: goals)
      (Segment.allAt text (earlier.tag.offset + 1) nameAttributes) := by
  intro earlierDescribed
  rcases firstLed?_eq_some_iff.mp first with ⟨foundStarts, led, missed⟩
  rcases Occurrence.exists_chain_eq_cons (Tag.scan text) found with ⟨outermost, inner, split⟩
  rcases Occurrence.exists_chain_eq_cons (Tag.scan text) earlier with ⟨other, others, otherSplit⟩
  rcases (leadsTo_iff_allAt names one goals foundStarts split).mp led with ⟨described, counted⟩
  have notLed := missed earlier earlierStarts order
  rw [leadsTo_iff_allAt names one goals earlierStarts otherSplit] at notLed
  -- It is described and not led to, so its outermost element has no name and a higher number.
  have uncounted : goal.name = none ∧ siblingNumber (Tag.scan text) other ≠ 1 := by
    simpa [earlierDescribed] using notLed
  have sameName : other.tag.name = outermost.tag.name :=
    (name_of_describes earlierStarts otherSplit earlierDescribed).trans
      (name_of_describes foundStarts split described).symm
  have later := place_lt_of_first_outermost foundStarts earlierStarts split otherSplit sameName
    (counted uncounted.1) uncounted.2
  omega

theorem exists_allAt_eq_cons {text : String} (nameAttributes : List String)
    (inStarts : occurrence ∈ starts (Tag.scan text)) {outermost : Occurrence}
    {inner : List Occurrence} (split : chain (Tag.scan text) occurrence = outermost :: inner) :
    ∃ goal goals, Segment.allAt text (occurrence.tag.offset + 1) nameAttributes = goal :: goals ∧
      goal.index = 1 ∧ goal.name = outermost.tag.attributes.firstFilled nameAttributes := by
  rw [Segment.allAt_start _ inStarts, Segment.map_ofOccurrence_chain _ split]
  exact ⟨_, _, rfl, rfl, rfl⟩

/-- Steps with names for a start tag lead to the first element that they describe. -/
theorem exists_firstLed?_describes (names : format ∈ naming) {text : String}
    {target outermost : Occurrence} {inner : List Occurrence}
    (targetStarts : target ∈ starts (Tag.scan text))
    (split : chain (Tag.scan text) target = outermost :: inner)
    (anchored : outermost.tag.attributes.firstFilled nameAttributes = none →
      siblingNumber (Tag.scan text) outermost = 1) :
    ∃ found, firstLed? (Tag.scan text)
        ((Segment.allAt text (target.tag.offset + 1) nameAttributes).map format.stepOf)
        nameAttributes = some found ∧
      found.place ≤ target.place ∧
      List.Forall₂ Segment.Describes (Segment.allAt text (target.tag.offset + 1) nameAttributes)
        (Segment.allAt text (found.tag.offset + 1) nameAttributes) ∧
      ∀ earlier ∈ starts (Tag.scan text), earlier.place < found.place →
        ¬List.Forall₂ Segment.Describes
          (Segment.allAt text (target.tag.offset + 1) nameAttributes)
          (Segment.allAt text (earlier.tag.offset + 1) nameAttributes) := by
  rcases exists_allAt_eq_cons nameAttributes targetStarts split with
    ⟨goal, goals, spelled, one, named⟩
  have led : LeadsTo (Tag.scan text) ((goal :: goals).map format.stepOf) nameAttributes target := by
    rw [leadsTo_iff_allAt names one goals targetStarts split, spelled, named]
    exact ⟨List.forall₂_same.mpr fun segment _ => segment.describes_self, anchored⟩
  rcases exists_firstLed? targetStarts led with ⟨found, first, place_le⟩
  rcases firstLed?_eq_some_iff.mp first with ⟨foundStarts, foundLed, -⟩
  rcases Occurrence.exists_chain_eq_cons (Tag.scan text) found with ⟨foundTop, below, foundSplit⟩
  have described := ((leadsTo_iff_allAt names one goals foundStarts foundSplit).mp foundLed).1
  rw [spelled]
  refine ⟨found, first, place_le, described, ?_⟩
  intro earlier earlierStarts order
  exact not_describes_of_earlier names one first earlierStarts order

theorem number_of_anchored {text : String} (inStarts : occurrence ∈ starts (Tag.scan text))
    {top : Occurrence} {inner : List Occurrence}
    (split : chain (Tag.scan text) occurrence = top :: inner)
    (anchored : ∃ outermost,
      (Element.enclosingIn text (occurrence.tag.offset + 1)).head? = some outermost ∧
        ((outermost.attributes.firstFilled nameAttributes).isSome = true ∨
          outermost.IsFirstAtTop (Tag.scan text)))
    (unnamed : top.tag.attributes.firstFilled nameAttributes = none) :
    siblingNumber (Tag.scan text) top = 1 := by
  rcases anchored with ⟨outermost, isHead, anchor⟩
  rw [Element.enclosingIn_start inStarts, split, List.map_cons, List.head?_cons,
    Option.some.injEq] at isHead
  subst isHead
  rcases mem_starts.mp inStarts with ⟨member, start⟩
  rcases anchor with named | first
  · have filled : (top.tag.attributes.firstFilled nameAttributes).isSome = true := named
    rw [unnamed] at filled
    exact nomatch filled
  · exact (isFirstAtTop_iff (Occurrence.mem_topLevel_of_chain member start split)).mp first

/--
The path of a start tag in a format with names leads to a start tag that it describes, the first one
and never one behind the tag, if no name holds a slash and the outermost element has a name or is
the first of its tag at the top level. No text in memory is as long as the bound.
-/
theorem exists_locate_named {text : String} (bound : text.utf8ByteSize < UInt64.size) {tag : Tag}
    (member : tag ∈ Tag.scan text) (start : tag.isStartTag = true) {format : Format}
    (names : format ∈ naming) {options : RenderOptions} (whole : options.nameOnly = false)
    (settings : Settings)
    (slashless : ∀ segment ∈ Segment.allAt text (tag.offset + 1) settings.nameAttributes,
      ∀ name, segment.name = some name → '/' ∉ name.toList)
    (anchored : ∃ outermost, (Element.enclosingIn text (tag.offset + 1)).head? = some outermost ∧
      ((outermost.attributes.firstFilled settings.nameAttributes).isSome = true ∨
        outermost.IsFirstAtTop (Tag.scan text))) :
    ∃ path, format.render? options
        (Segment.allAt text (tag.offset + 1) settings.nameAttributes) = some path ∧
      ∃ found ∈ Tag.scan text, found.isStartTag = true ∧
        Query.locate text path settings = .ok found.start ∧ found.offset ≤ tag.offset ∧
        List.Forall₂ Segment.Describes
          (Segment.allAt text (tag.offset + 1) settings.nameAttributes)
          (Segment.allAt text (found.offset + 1) settings.nameAttributes) ∧
        ∀ earlier ∈ Tag.scan text, earlier.isStartTag = true → earlier.offset < found.offset →
          ¬List.Forall₂ Segment.Describes
            (Segment.allAt text (tag.offset + 1) settings.nameAttributes)
            (Segment.allAt text (earlier.offset + 1) settings.nameAttributes) := by
  rcases Occurrence.exists_mem_starts member start with ⟨target, targetStarts, rfl⟩
  rcases Occurrence.exists_chain_eq_cons (Tag.scan text) target with ⟨top, inner, split⟩
  have topNumber := number_of_anchored targetStarts split anchored
  rcases exists_render_readPath_naming bound targetStarts names whole slashless with
    ⟨path, rendered, read⟩
  rcases exists_firstLed?_describes names targetStarts split topNumber with
    ⟨found, first, place_le, described, undescribed⟩
  have foundStarts := (firstLed?_eq_some_iff.mp first).1
  rcases mem_starts.mp targetStarts with ⟨targetMem, -⟩
  rcases mem_starts.mp foundStarts with ⟨foundMem, foundStart⟩
  have located : Query.locate text path settings = .ok found.tag.start := by
    rw [Query.locate_eq_ok_start_iff foundStarts, read]
    exact first
  have offset_le := (Tag.offset_le_iff_place_le foundMem targetMem).mpr place_le
  refine ⟨path, rendered, found.tag, List.mem_of_getElem? (Occurrence.mem_all.mp foundMem),
    foundStart, located, offset_le, described, ?_⟩
  intro earlierTag earlierTagMem earlierTagStart order
  rcases Occurrence.exists_mem_starts earlierTagMem earlierTagStart with
    ⟨earlier, earlierStarts, rfl⟩
  apply undescribed earlier earlierStarts
  apply Nat.lt_of_not_le
  intro behind
  have offset_ge := (Tag.offset_le_iff_place_le foundMem (mem_starts.mp earlierStarts).1).mpr behind
  omega

/-- The first element with the name has nothing inside, and the second one has what is asked for. -/
theorem exists_locate_named_repeated :
    ∃ found ∈ Tag.scan "<a name='x'/><a name='x'><b/></a><a name='x'><b/></a>",
      Query.locate "<a name='x'/><a name='x'><b/></a><a name='x'><b/></a>" "/a[@name='x']/b[1]"
        {} = .ok found.start ∧ found.offset = 25 := by
  let text := "<a name='x'/><a name='x'><b/></a><a name='x'><b/></a>"
  have member : ⟨.selfClosing, "b", NameTable.empty, ⟨45, 0, 45⟩, "<b/>"⟩ ∈ Tag.scan text := by
    decide +kernel
  have segments : Segment.allAt text 46 ["name"] =
      [Segment.ofParts "a" 1 (some "x"), Segment.ofParts "b" 1 none] := by
    decide +kernel
  have shown : Format.namedFull.render? {} (Segment.allAt text 46 ["name"]) =
      some "/a[@name='x']/b[1]" := by
    decide +kernel
  have slashless : ∀ segment ∈ Segment.allAt text 46 ["name"],
      ∀ name, segment.name = some name → '/' ∉ name.toList := by
    intro segment segmentMem name named
    rw [segments, List.mem_cons, List.mem_singleton] at segmentMem
    rcases segmentMem with rfl | rfl
    · have value : name = "x" := (Option.some.inj named).symm
      rw [value]
      decide
    · exact nomatch named
  have anchored : ∃ outermost, (Element.enclosingIn text 46).head? = some outermost ∧
      ((outermost.attributes.firstFilled ["name"]).isSome = true ∨
        outermost.IsFirstAtTop (Tag.scan text)) := by
    have named : ((Element.enclosingIn text 46).head?.bind
        fun outermost => outermost.attributes.firstFilled ["name"]).isSome = true := by
      decide +kernel
    rcases Option.isSome_iff_exists.mp named with ⟨value, filled⟩
    rcases Option.bind_eq_some_iff.mp filled with ⟨outermost, isHead, found⟩
    exact ⟨outermost, isHead, Or.inl (Option.isSome_iff_exists.mpr ⟨value, found⟩)⟩
  have names : Format.namedFull ∈ naming := by decide
  have whole : ({} : RenderOptions).nameOnly = false := rfl
  rcases exists_locate_named (by decide +kernel) member rfl names whole {} slashless anchored with
    ⟨path, rendered, found, foundMem, -, located, -⟩
  rw [Option.some.inj (rendered.symm.trans shown)] at located
  have first : Query.locate text "/a[@name='x']/b[1]" {} = .ok ⟨25, 0, 25⟩ := by decide +kernel
  have foundStart : found.start = ⟨25, 0, 25⟩ := Except.ok.inj (located.symm.trans first)
  refine ⟨found, foundMem, located, ?_⟩
  rw [Tag.offset, foundStart]

end XPath

end MarkupPath
