import MarkupPath.Proofs.Element.Cursor
import MarkupPath.Proofs.XPath.Reading
import MarkupPath.Query.Context
import MarkupPath.Query.Library

/-!
# One result per line

The results for several cursors are joined by line breaks, so they can be told
apart as long as none of them holds a line break itself. Neither a tag name nor an
index does. But the name of an element is the value of an attribute, which may go
over several lines, and the formats that show names write it as it is.
-/

namespace MarkupPath

namespace Text

theorem mem_intercalate_iff {character : Char} {separator : List Char}
    (absent : character ∉ separator) {pieces : List (List Char)} :
    character ∈ separator.intercalate pieces ↔ ∃ piece ∈ pieces, character ∈ piece := by
  induction pieces with
  | nil => simp
  | cons first rest ih =>
      cases rest with
      | nil => simp
      | cons second rest =>
          rw [List.intercalate_cons_cons, List.mem_append, List.mem_append, ih]
          simp [absent]

/-- Joined lines are split into the same lines if and only if none of them is more than one line. -/
theorem splitOn_intercalate_iff {lines : List String} (filled : lines ≠ []) :
    (("\n".intercalate lines).toList.splitOn '\n').map String.ofList = lines ↔
      ∀ line ∈ lines, '\n' ∉ line.toList := by
  constructor
  · -- A line that comes back is a piece of the split, and no piece holds a line break.
    intro same line member
    rw [← same] at member
    rcases List.mem_map.mp member with ⟨piece, isPiece, rfl⟩
    rw [String.toList_ofList]
    exact XPath.Step.not_mem_of_mem_splitOn isPiece
  · intro whole
    have split : ("\n".intercalate lines).toList.splitOn '\n' = lines.map String.toList := by
      rw [String.toList_intercalate]
      apply List.splitOn_intercalate
      · simpa using whole
      · simpa using filled
    rw [split, List.map_map]
    simp [Function.comp_def]

end Text

namespace XPath

/-- The name that a format writes of a segment. Templates are left out. -/
def Format.writtenName? (format : Format) (segment : Segment) : Option String :=
  match format with
  | .namedFull | .namedCompact | .breadcrumb => segment.name
  | .full | .compact | .namesOnly | .custom => none

section OneLine

variable {segment : Segment} (oneLine : '\n' ∉ segment.tag.toList)

include oneLine

theorem newline_not_mem_fullStep : '\n' ∉ (fullStep segment).toList := by
  have digits : '\n' ∉ Nat.toDigits 10 segment.index := by
    intro member
    exact absurd (Nat.isDigit_of_mem_toDigits (by decide) (by decide) member) (by decide)
  simp [fullStep, oneLine, digits]

theorem newline_not_mem_bareStep : '\n' ∉ (bareStep segment).toList := by
  simp [bareStep, oneLine]

theorem newline_not_mem_compactStep : '\n' ∉ (compactStep segment).toList := by
  rw [compactStep]
  split
  · exact newline_not_mem_fullStep oneLine
  · exact newline_not_mem_bareStep oneLine

theorem newline_mem_namedStep_iff (nameOnly : Bool) {unnamed : Segment → String}
    (plain : '\n' ∉ (unnamed segment).toList) :
    '\n' ∈ (namedStep nameOnly unnamed segment).toList ↔
      ∃ name, segment.name = some name ∧ '\n' ∈ name.toList := by
  cases named : segment.name with
  | none => simpa [namedStep, named] using plain
  | some name =>
      have escaped : '\n' ∈ Text.Quoted.double '\'' name.toList ↔ '\n' ∈ name.toList :=
        ⟨Text.Quoted.mem_of_mem_double (by decide), Text.Quoted.mem_double_of_mem '\''⟩
      cases nameOnly <;> simp [namedStep, named, escapeQuotes, oneLine, escaped]

theorem newline_mem_crumb_iff (nameOnly : Bool) :
    '\n' ∈ (crumb nameOnly segment).toList ↔
      ∃ name, segment.name = some name ∧ '\n' ∈ name.toList := by
  cases named : segment.name with
  | none => simpa [crumb, named] using oneLine
  | some name => cases nameOnly <;> simp [crumb, named, oneLine]

end OneLine

/-- A path has a line break if and only if a name that is written in it has one. -/
theorem newline_mem_render_iff {format : Format} (untemplated : format ≠ .custom)
    (options : RenderOptions) {segments : List Segment}
    (oneLine : ∀ segment ∈ segments, '\n' ∉ segment.tag.toList) :
    ∃ path, format.render? options segments = some path ∧
      ('\n' ∈ path.toList ↔ ∃ segment ∈ segments, ∃ name,
        format.writtenName? segment = some name ∧ '\n' ∈ name.toList) := by
  have joined : ∀ step : Segment → String,
      (∀ segment ∈ segments, '\n' ∈ (step segment).toList ↔
        ∃ name, format.writtenName? segment = some name ∧ '\n' ∈ name.toList) →
      ('\n' ∈ (String.join (segments.map step)).toList ↔
        ∃ segment ∈ segments, ∃ name,
          format.writtenName? segment = some name ∧ '\n' ∈ name.toList) := by
    intro step each
    rw [String.toList_join, List.flatMap_map, List.mem_flatMap]
    exact exists_congr fun segment => and_congr_right fun member => each segment member
  have nameless : ∀ {step : Segment → String} {segment : Segment},
      '\n' ∉ (step segment).toList → format.writtenName? segment = none →
      ('\n' ∈ (step segment).toList ↔
        ∃ name, format.writtenName? segment = some name ∧ '\n' ∈ name.toList) := by
    intro step segment plain hidden
    simp [plain, hidden]
  cases format with
  | full =>
      refine ⟨_, rfl, joined _ fun segment member => nameless ?_ rfl⟩
      exact newline_not_mem_fullStep (oneLine segment member)
  | compact =>
      refine ⟨_, rfl, joined _ fun segment member => nameless ?_ rfl⟩
      exact newline_not_mem_compactStep (oneLine segment member)
  | namesOnly =>
      refine ⟨_, rfl, joined _ fun segment member => nameless ?_ rfl⟩
      exact newline_not_mem_bareStep (oneLine segment member)
  | namedFull =>
      refine ⟨_, rfl, joined _ fun segment member => ?_⟩
      exact newline_mem_namedStep_iff (oneLine segment member) _
        (newline_not_mem_fullStep (oneLine segment member))
  | namedCompact =>
      refine ⟨_, rfl, joined _ fun segment member => ?_⟩
      exact newline_mem_namedStep_iff (oneLine segment member) _
        (newline_not_mem_compactStep (oneLine segment member))
  | breadcrumb =>
      refine ⟨_, rfl, ?_⟩
      rw [String.toList_intercalate, Text.mem_intercalate_iff (by decide), List.map_map]
      simp only [List.mem_map, exists_exists_and_eq_and]
      exact exists_congr fun segment => and_congr_right fun member =>
        newline_mem_crumb_iff (oneLine segment member) options.nameOnly
  | custom => exact absurd rfl untemplated

end XPath

theorem Element.isName_of_mem_enclosingIn {text : String} {offset : Nat} {element : Element}
    (member : element ∈ enclosingIn text offset) : Markup.IsName element.name.toList := by
  rcases Tag.exists_cut text offset with ⟨ended, touched, beyond, cut⟩
  rw [cut.enclosingIn_eq] at member
  rcases List.mem_map.mp member with ⟨occurrence, isAround, rfl⟩
  have inScan := (cut.mem_all_of_mem_around isAround).1
  exact Tag.isName_of_mem_scan (List.mem_of_getElem? (Occurrence.mem_all.mp inScan))

namespace Query.Context

variable {context : Context} {text : String}

/-- The paths at several offsets that count, in the order of the offsets. -/
def results (context : Context) (text : String) (offsets : List Nat) : List String :=
  (offsets.filterMap (context.xpathAt text)).filter (!·.isEmpty)

theorem newline_not_mem_tag {offset : Nat} {segment : Segment}
    (member : segment ∈ context.segmentsAt text offset) : '\n' ∉ segment.tag.toList := by
  rcases List.mem_map.mp member with ⟨⟨element, place⟩, isKept, rfl⟩
  have inPath := (List.mem_zipIdx' (List.mem_filter.mp isKept).1).2
  have isName : Markup.IsName element.name.toList :=
    Element.isName_of_mem_enclosingIn (inPath ▸ List.getElem_mem _)
  exact isName.not_mem (by decide)

theorem newline_mem_xpathAt_iff (untemplated : context.format ≠ .custom) (text : String)
    (offset : Nat) :
    (∃ path, context.xpathAt text offset = some path ∧ '\n' ∈ path.toList) ↔
      ∃ segment ∈ context.segmentsAt text offset, ∃ name,
        context.format.writtenName? segment = some name ∧ '\n' ∈ name.toList := by
  rw [xpathAt]
  split
  · next isEmpty =>
    rw [segmentsAt, List.isEmpty_iff.mp isEmpty]
    simp [Segment.ofPath]
  · rcases XPath.newline_mem_render_iff untemplated context.settings.renderOptions
      (fun segment member => newline_not_mem_tag member) with ⟨path, rendered, breaks⟩
    rw [rendered, ← breaks]
    simp

theorem newline_mem_results_iff (untemplated : context.format ≠ .custom) (text : String)
    (offsets : List Nat) :
    (∃ result ∈ context.results text offsets, '\n' ∈ result.toList) ↔
      ∃ offset ∈ offsets, ∃ segment ∈ context.segmentsAt text offset, ∃ name,
        context.format.writtenName? segment = some name ∧ '\n' ∈ name.toList := by
  simp only [← newline_mem_xpathAt_iff untemplated text]
  constructor
  · rintro ⟨result, member, breaks⟩
    rcases List.mem_filterMap.mp (List.mem_filter.mp member).1 with ⟨offset, inOffsets, found⟩
    exact ⟨offset, inOffsets, result, found, breaks⟩
  · rintro ⟨offset, inOffsets, result, found, breaks⟩
    refine ⟨result, List.mem_filter.mpr ⟨?_, ?_⟩, breaks⟩
    · exact List.mem_filterMap.mpr ⟨offset, inOffsets, found⟩
    · rw [Bool.not_eq_true']
      cases empty : result.isEmpty with
      | false => rfl
      | true => simp [String.isEmpty_iff.mp empty] at breaks

theorem xpathsAt_of_several (writeTexts : List String → Except Json.Fault String)
    (joined : context.settings.joining = .lines) {offsets : List Nat}
    (several : 2 ≤ (context.results text offsets).length) :
    context.xpathsAt writeTexts text offsets =
      .ok ("\n".intercalate (context.results text offsets)) := by
  rw [xpathsAt, ← results]
  cases found : context.results text offsets with
  | nil => simp [found] at several
  | cons first rest =>
      cases rest with
      | nil => simp [found] at several
      | cons second rest =>
          rw [joined]
          rfl

/--
The output for several cursors is split into their results, a line for each, if and only if no name
that the format writes for one of the cursors has a line break.
-/
theorem splitOn_xpathsAt_iff (writeTexts : List String → Except Json.Fault String)
    (joined : context.settings.joining = .lines) (untemplated : context.format ≠ .custom)
    {offsets : List Nat} (several : 2 ≤ (context.results text offsets).length) :
    ∃ output, context.xpathsAt writeTexts text offsets = .ok output ∧
      ((output.toList.splitOn '\n').map String.ofList = context.results text offsets ↔
        ∀ offset ∈ offsets, ∀ segment ∈ context.segmentsAt text offset, ∀ name,
          context.format.writtenName? segment = some name → '\n' ∉ name.toList) := by
  refine ⟨_, xpathsAt_of_several writeTexts joined several, ?_⟩
  have filled : context.results text offsets ≠ [] := by
    intro isNil
    simp [isNil] at several
  have breaks := not_congr (newline_mem_results_iff untemplated text offsets)
  push Not at breaks
  exact (Text.splitOn_intercalate_iff filled).trans breaks

/-- A tag that goes over several lines does no harm as long as its name stays on one. -/
theorem splitOn_xpathsAt_long_tag :
    ∃ context, Context.create {} (some .namedFull) .empty = .ok context ∧
      ∃ output,
        context.xpathsAt Library.standard.writeTexts "<a\n name='x'/><b/>" [1, 15] = .ok output ∧
        (output.toList.splitOn '\n').map String.ofList = ["/a[@name='x']", "/b[1]"] := by
  let context : Context := ⟨{}, .namedFull, .empty, by decide, by decide⟩
  have results : context.results "<a\n name='x'/><b/>" [1, 15] = ["/a[@name='x']", "/b[1]"] := by
    decide +kernel
  have several : 2 ≤ (context.results "<a\n name='x'/><b/>" [1, 15]).length := by
    rw [results]
    decide
  have untemplated : context.format ≠ .custom := by decide
  rcases splitOn_xpathsAt_iff Library.standard.writeTexts rfl untemplated several with
    ⟨output, answered, lines⟩
  refine ⟨context, rfl, output, answered, ?_⟩
  rw [← results]
  apply lines.mpr
  decide +kernel

example : (Context.create {} (some .namedFull) .empty >>=
    fun context => context.xpathsAt Library.standard.writeTexts "<a name='x\ny'/><b/>" [1, 17]) =
      .ok "/a[@name='x\ny']\n/b[1]" := by
  decide +kernel

end Query.Context

end MarkupPath
