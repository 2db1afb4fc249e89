import MarkupPath.Proofs.Element.Labels
import MarkupPath.Proofs.XPath.Location

/-!
# Paths without names

Three of the formats write every segment by its label alone. Read back, a step
without a name asks for a label: a tag and an index, which is one for a bare
step. So steps without names lead to an element if and only if they spell its
address, and the path of an element that was found shows the steps again.
-/

namespace MarkupPath.XPath

open Occurrence (starts mem_starts chain address shownLabels)

namespace Format

/-- The formats that write a segment by its tag and its index. -/
def unnamed : List Format :=
  [.full, .compact, .namesOnly]

theorem exists_render?_label {format : Format} (plain : format ∈ unnamed)
    (options : RenderOptions) :
    ∃ write : String × Nat → String, ∀ segments : List Segment,
      format.render? options segments =
        some (String.join ((segments.map Segment.label).map write)) := by
  simp only [unnamed, List.mem_cons, List.not_mem_nil, or_false] at plain
  rcases plain with rfl | rfl | rfl
  · refine ⟨fun label => "/" ++ label.1 ++ "[" ++ label.2.repr ++ "]", fun segments => ?_⟩
    rw [List.map_map]
    rfl
  · refine ⟨fun label => if 1 < label.2 then "/" ++ label.1 ++ "[" ++ label.2.repr ++ "]"
      else "/" ++ label.1, fun segments => ?_⟩
    rw [List.map_map]
    rfl
  · refine ⟨fun label => "/" ++ label.1, fun segments => ?_⟩
    rw [List.map_map]
    rfl

/-- Segments with the same labels have the same path. -/
theorem render?_eq_of_label {format : Format} (plain : format ∈ unnamed) (options : RenderOptions)
    {first second : List Segment}
    (same : first.map Segment.label = second.map Segment.label) :
    ∃ path, format.render? options first = some path ∧
      format.render? options second = some path := by
  rcases exists_render?_label plain options with ⟨write, rendered⟩
  exact ⟨_, rendered first, same ▸ rendered second⟩

end Format

namespace Step

/-- The label that a step without a name asks for. -/
def label (step : Step) : String × Nat :=
  (step.tag, step.index?.getD 1)

theorem acceptsIn_iff_label {step : Step} (unnamed : step.name? = none) (tags : List Tag)
    (nameAttributes : List String) (occurrence : Occurrence) :
    step.acceptsIn tags nameAttributes occurrence = true ↔
      step.label = occurrence.label tags := by
  rw [acceptsIn, accepts_iff]
  rcases step with ⟨tag, choice⟩
  cases choice with
  | first => simp [label, index?, Occurrence.label, eq_comm]
  | index number => simp [label, index?, Occurrence.label, eq_comm]
  | name value => exact absurd unnamed (Option.some_ne_none value)

end Step

variable {steps : List Step}

/-- Steps without names lead to the element whose address they spell. -/
theorem leadsTo_iff_address (unnamed : ∀ step ∈ steps, step.name? = none) (tags : List Tag)
    (nameAttributes : List String) (occurrence : Occurrence) :
    LeadsTo tags steps nameAttributes occurrence ↔
      address tags occurrence = (steps.map Step.label).reverse := by
  have labelled : LeadsTo tags steps nameAttributes occurrence ↔
      List.Forall₂ (fun step member => step.label = member.label tags) steps
        (chain tags occurrence) := by
    apply forall₂_iff_of_mem
    intro step stepMem member _
    exact Step.acceptsIn_iff_label (unnamed step stepMem) tags nameAttributes member
  have equal : List.Forall₂ (fun step member => step.label = member.label tags) steps
        (chain tags occurrence) ↔
      steps.map Step.label = (chain tags occurrence).map (Occurrence.label tags) := by
    rw [← List.forall₂_eq_eq_eq, List.forall₂_map_left_iff, List.forall₂_map_right_iff]
  rw [labelled, equal, Occurrence.map_label_chain, eq_comm, List.reverse_eq_iff]

theorem shownLabels_eq_self (first : ∀ step, steps.head? = some step →
      step.index? = none ∨ step.index? = some 1) :
    shownLabels (steps.map Step.label) = steps.map Step.label := by
  cases steps with
  | nil => rfl
  | cons step steps =>
      have one : step.index?.getD 1 = 1 := by
        rcases first step rfl with bare | indexed
        · rw [bare]
          rfl
        · rw [indexed]
          rfl
      rw [List.map_cons, Step.label, one]
      rfl

/--
Where a path without names leads, the path of the element shows the steps again: their tags, and
their indexes with the index one for a bare step. At the top level no other index is ever shown.
-/
theorem map_label_allAt_of_locate {text path : String} {settings : Settings} {position : Position}
    (unnamed : ∀ step ∈ Step.readPath path, step.name? = none)
    (first : ∀ step, (Step.readPath path).head? = some step →
      step.index? = none ∨ step.index? = some 1)
    (found : Query.locate text path settings = .ok position) (nameAttributes : List String) :
    (Segment.allAt text (position.offset + 1) nameAttributes).map Segment.label =
      (Step.readPath path).map Step.label := by
  rcases Query.exists_firstLed?_of_locate found with ⟨occurrence, firstLed, rfl⟩
  rcases firstLed?_eq_some_iff.mp firstLed with ⟨inStarts, led, -⟩
  have spelled := (leadsTo_iff_address unnamed _ _ _).mp led
  have shown := Occurrence.shownLabels_address nameAttributes inStarts
  rw [spelled, List.reverse_reverse, shownLabels_eq_self first] at shown
  exact shown.symm

theorem map_label_allAt_of_locate_unclosed :
    Query.locate "<a><b/></c><b><c></b><b/>" "/a/b[2]/c/b" {} = .ok ⟨21, 0, 21⟩ ∧
      (Segment.allAt "<a><b/></c><b><c></b><b/>" 22 []).map Segment.label =
        [("a", 1), ("b", 2), ("c", 1), ("b", 1)] := by
  have found : Query.locate "<a><b/></c><b><c></b><b/>" "/a/b[2]/c/b" {} = .ok ⟨21, 0, 21⟩ := by
    decide +kernel
  have unnamed : ∀ step ∈ Step.readPath "/a/b[2]/c/b", step.name? = none := by
    decide +kernel
  have first : ∀ step, (Step.readPath "/a/b[2]/c/b").head? = some step →
      step.index? = none ∨ step.index? = some 1 := by
    rintro step isHead
    have bare : (Step.readPath "/a/b[2]/c/b").head? = some ⟨"a", .first⟩ := by decide +kernel
    rw [bare, Option.some.injEq] at isHead
    exact Or.inl (isHead ▸ rfl)
  refine ⟨found, (map_label_allAt_of_locate unnamed first found []).trans ?_⟩
  decide +kernel

end MarkupPath.XPath
