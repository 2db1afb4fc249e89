import MarkupPath.Proofs.XPath.Reading

/-!
# Locator formats

Four of the formats show enough of every element to find it again. They write one
step for each segment, and `Format.stepOf` tells which. A rendered path is read
back as these steps, with one exception: a name that holds a slash is cut there,
and then the steps that are read are never the ones that were written.
-/

namespace MarkupPath

/-- The parts of a segment are as a document of a possible size gives them. -/
structure Segment.IsReadable (segment : Segment) : Prop where
  isName_tag : Markup.IsName segment.tag.toList
  index_lt : segment.index < UInt64.size
  name_filled : ∀ name, segment.name = some name → name.toList.all Text.isBlank = false

namespace XPath

namespace Format

/-- The formats from which a path can be found again. -/
def locators : List Format :=
  [.full, .compact, .namedFull, .namedCompact]

/-- The name that a locator format shows of a segment. -/
def shownName? (format : Format) (segment : Segment) : Option String :=
  match format with
  | .namedFull | .namedCompact => segment.name
  | _ => none

/-- The index that a locator format shows of a segment, where it shows no name. -/
def shownIndex? (format : Format) (segment : Segment) : Option Nat :=
  match format with
  | .full | .namedFull => some segment.index
  | .compact | .namedCompact => if 1 < segment.index then some segment.index else none
  | _ => none

/-- The step that a locator format writes for a segment. -/
def stepOf (format : Format) (segment : Segment) : Step :=
  Step.ofParts segment.tag (format.shownIndex? segment) (format.shownName? segment)

theorem fullStep_eq (segment : Segment) :
    fullStep segment = "/" ++ String.ofList (stepOf .full segment).write := by
  apply String.toList_injective
  simp [fullStep, stepOf, shownIndex?, shownName?, Step.ofParts, Step.write, Step.inside?, Nat.repr]

theorem compactStep_eq (segment : Segment) :
    compactStep segment = "/" ++ String.ofList (stepOf .compact segment).write := by
  unfold compactStep
  split
  · next high =>
    rw [fullStep_eq]
    simp [stepOf, shownIndex?, shownName?, high]
  · next low =>
    apply String.toList_injective
    simp [stepOf, shownIndex?, shownName?, low, Step.ofParts, Step.write, Step.inside?]

theorem namedStep_of_name {segment : Segment} {name : String} (named : segment.name = some name)
    (unnamed : Segment → String) :
    namedStep false unnamed segment =
      "/" ++ String.ofList (Step.write ⟨segment.tag, .name name⟩) := by
  apply String.toList_injective
  simp [namedStep, named, Step.write, Step.inside?, escapeQuotes]

/-- A format that shows names writes a segment without a name as the other format does. -/
theorem namedStep_eq (naming plain : Format) {unnamed : Segment → String}
    (shows : naming.shownName? = Segment.name) (hides : plain.shownName? = fun _ => none)
    (same : naming.shownIndex? = plain.shownIndex?)
    (written : ∀ segment, unnamed segment = "/" ++ String.ofList (plain.stepOf segment).write)
    (segment : Segment) :
    namedStep false unnamed segment =
      "/" ++ String.ofList (naming.stepOf segment).write := by
  cases named : segment.name with
  | none => simp only [namedStep, named, written, stepOf, shows, hides, same]
  | some name =>
      rw [namedStep_of_name named]
      simp [stepOf, shows, named, Step.ofParts]

/-- A locator format writes one step for every segment. -/
theorem render?_of_locator {format : Format} (locator : format ∈ locators) {options : RenderOptions}
    (whole : options.nameOnly = false) (segments : List Segment) :
    format.render? options segments = some (Step.writePath (segments.map format.stepOf)) := by
  have written : ∀ (step : Segment → String), (∀ segment, step segment =
      "/" ++ String.ofList (format.stepOf segment).write) →
      String.join (segments.map step) = Step.writePath (segments.map format.stepOf) := by
    intro step each
    rw [Step.writePath, List.map_map]
    congr 1
    exact List.map_congr_left fun segment _ => each segment
  cases format with
  | full => exact congrArg some (written _ fullStep_eq)
  | compact => exact congrArg some (written _ compactStep_eq)
  | namedFull =>
      rw [render?, whole]
      exact congrArg some (written _ (namedStep_eq .namedFull .full rfl rfl rfl fullStep_eq))
  | namedCompact =>
      rw [render?, whole]
      exact congrArg some (written _ (namedStep_eq .namedCompact .compact rfl rfl rfl compactStep_eq))
  | namesOnly => exact absurd locator (by decide)
  | breadcrumb => exact absurd locator (by decide)
  | custom => exact absurd locator (by decide)

theorem shownIndex?_lt {format : Format} {segment : Segment} (readable : segment.IsReadable)
    {number : Nat} (shown : format.shownIndex? segment = some number) : number < UInt64.size := by
  have bound := readable.index_lt
  cases format <;> simp only [shownIndex?, Option.ite_none_right_eq_some, Option.some.injEq,
    reduceCtorEq] at shown <;> omega

theorem name_of_shownName? {format : Format} {segment : Segment} {name : String}
    (shown : format.shownName? segment = some name) : segment.name = some name := by
  cases format <;> first | exact shown | exact nomatch shown

theorem choice_stepOf (format : Format) (segment : Segment) :
    (format.stepOf segment).choice =
      match format.shownName? segment, format.shownIndex? segment with
      | some name, _ => .name name
      | none, some number => .index number
      | none, none => .first := by
  rfl

theorem choice_stepOf_eq_name {format : Format} {segment : Segment} {name : String} :
    (format.stepOf segment).choice = .name name ↔ format.shownName? segment = some name := by
  rw [choice_stepOf]
  cases format.shownName? segment with
  | some shown => simp
  | none => cases format.shownIndex? segment <;> simp

theorem isReadable_stepOf (format : Format) {segment : Segment} (readable : segment.IsReadable) :
    (format.stepOf segment).IsReadable := by
  refine ⟨readable.isName_tag, ?_, ?_⟩
  · intro number indexed
    rw [choice_stepOf] at indexed
    split at indexed
    · exact nomatch indexed
    · next _ shown _ shownIndex =>
      rcases Choice.index.inj indexed with rfl
      exact shownIndex?_lt readable shownIndex
    · exact nomatch indexed
  · intro value named
    have filled := readable.name_filled value (name_of_shownName? (choice_stepOf_eq_name.mp named))
    rintro rfl
    exact absurd filled (by decide)

/-- The steps of readable segments are read back if no name that is shown holds a slash. -/
theorem readPath_writePath_stepOf {format : Format} {segments : List Segment}
    (readable : ∀ segment ∈ segments, segment.IsReadable)
    (slashless : ∀ segment ∈ segments, ∀ name, format.shownName? segment = some name →
      '/' ∉ name.toList) :
    Step.readPath (Step.writePath (segments.map format.stepOf)) = segments.map format.stepOf := by
  apply Step.readPath_writePath
  · intro step stepMem
    rcases List.mem_map.mp stepMem with ⟨segment, member, rfl⟩
    exact isReadable_stepOf format (readable segment member)
  · intro step stepMem value named
    rcases List.mem_map.mp stepMem with ⟨segment, member, rfl⟩
    exact slashless segment member value (choice_stepOf_eq_name.mp named)

/--
Reading a rendered path gives, for every segment, the step with its tag and with
what the format shows of it, if and only if no name that is shown holds a slash.
-/
theorem readPath_render_iff {format : Format} (locator : format ∈ locators)
    {options : RenderOptions} (whole : options.nameOnly = false) {segments : List Segment}
    (readable : ∀ segment ∈ segments, segment.IsReadable) :
    ∃ path, format.render? options segments = some path ∧
      (Step.readPath path = segments.map format.stepOf ↔
        ∀ segment ∈ segments, ∀ name, format.shownName? segment = some name →
          '/' ∉ name.toList) := by
  refine ⟨_, render?_of_locator locator whole segments, ?_⟩
  constructor
  · intro read segment member name shown
    have readStep : format.stepOf segment ∈
        Step.readPath (Step.writePath (segments.map format.stepOf)) := by
      rw [read]
      exact List.mem_map_of_mem member
    exact Step.slash_not_mem_of_readPath readStep (choice_stepOf_eq_name.mpr shown)
  · intro slashless
    apply Step.readPath_writePath
    · intro step stepMem
      rcases List.mem_map.mp stepMem with ⟨segment, member, rfl⟩
      exact isReadable_stepOf format (readable segment member)
    · intro step stepMem value named
      rcases List.mem_map.mp stepMem with ⟨segment, member, rfl⟩
      exact slashless segment member value (choice_stepOf_eq_name.mp named)

theorem readPath_render_quotes :
    Format.namedCompact ∈ locators ∧
      ∃ path, Format.namedCompact.render? {} [⟨"a", 2, some "it's [1]", by decide⟩,
          ⟨"b", 1, none, by decide⟩, ⟨"b", 3, none, by decide⟩] = some path ∧
        Step.readPath path =
          [⟨"a", .name "it's [1]"⟩, ⟨"b", .first⟩, ⟨"b", .index 3⟩] := by
  have locator : Format.namedCompact ∈ locators := by decide
  refine ⟨locator, ?_⟩
  have readable : ∀ segment ∈ [(⟨"a", 2, some "it's [1]", by decide⟩ : Segment),
      ⟨"b", 1, none, by decide⟩, ⟨"b", 3, none, by decide⟩], segment.IsReadable := by
    intro segment member
    simp only [List.mem_cons, List.not_mem_nil, or_false] at member
    rcases member with rfl | rfl | rfl
    · refine ⟨by decide, by decide, ?_⟩
      rintro name ⟨⟩
      decide
    · exact ⟨by decide, by decide, fun name shown => nomatch shown⟩
    · exact ⟨by decide, by decide, fun name shown => nomatch shown⟩
  have whole : ({} : RenderOptions).nameOnly = false := rfl
  rcases readPath_render_iff locator whole readable with ⟨path, rendered, reads⟩
  refine ⟨path, rendered, reads.mpr ?_⟩
  decide

example : Step.readPath "/a[@name='x/y']" = [⟨"a[@name='x", .first⟩, ⟨"y']", .first⟩] := by
  decide

end Format

end XPath

end MarkupPath
