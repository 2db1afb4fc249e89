import MarkupPath.Proofs.Nesting.Address
import MarkupPath.Proofs.XPath.RoundTrip
import MarkupPath.Query.Context

/-!
# Where a path leads

A path leads to the first start tag that its steps lead to. So it leads to a
given start tag if its steps do, and to no start tag before this one.
-/

namespace MarkupPath

open Occurrence (starts mem_starts starts_pairwise)

namespace XPath

variable {tags : List Tag} {steps : List Step} {nameAttributes : List String}
  {occurrence : Occurrence}

theorem not_leadsTo_nil : ¬LeadsTo tags [] nameAttributes occurrence := by
  intro led
  have lengths := led.length_eq
  simp [Occurrence.chain] at lengths

theorem firstLed?_eq_find?_starts (tags : List Tag) (steps : List Step)
    (nameAttributes : List String) :
    firstLed? tags steps nameAttributes =
      (starts tags).find? fun occurrence => LeadsTo tags steps nameAttributes occurrence := by
  rw [firstLed?, starts, List.find?_filter]
  simp only [Bool.decide_and, Bool.decide_eq_true]

/-- The first start tag that steps lead to is one of them, and there is none before it. -/
theorem firstLed?_eq_some_iff :
    firstLed? tags steps nameAttributes = some occurrence ↔
      occurrence ∈ starts tags ∧ LeadsTo tags steps nameAttributes occurrence ∧
        ∀ earlier ∈ starts tags, earlier.place < occurrence.place →
          ¬LeadsTo tags steps nameAttributes earlier := by
  rw [firstLed?_eq_find?_starts]
  constructor
  · intro found
    have led := List.find?_some found
    rw [decide_eq_true_eq] at led
    refine ⟨List.mem_of_find?_eq_some found, led, ?_⟩
    intro earlier inStarts order
    rcases List.find?_eq_some_iff_append.mp found with ⟨-, before, after, split, missed⟩
    have ordered := starts_pairwise tags
    rw [split, List.pairwise_append, List.pairwise_cons] at ordered
    rw [split] at inStarts
    rcases List.mem_append.mp inStarts with inBefore | inRest
    · simpa using missed earlier inBefore
    · rcases List.mem_cons.mp inRest with rfl | inAfter
      · omega
      · have later := ordered.2.1.1 earlier inAfter
        omega
  · rintro ⟨inStarts, led, first⟩
    rcases List.append_of_mem inStarts with ⟨before, after, split⟩
    rw [List.find?_eq_some_iff_append]
    refine ⟨decide_eq_true led, before, after, split, ?_⟩
    intro earlier inBefore
    have ordered := starts_pairwise tags
    rw [split, List.pairwise_append] at ordered
    have order := ordered.2.2 earlier inBefore occurrence List.mem_cons_self
    have missed := first earlier (split ▸ List.mem_append_left _ inBefore) order
    simpa using missed

theorem exists_firstLed? (inStarts : occurrence ∈ starts tags)
    (led : LeadsTo tags steps nameAttributes occurrence) :
    ∃ found, firstLed? tags steps nameAttributes = some found ∧
      found.place ≤ occurrence.place := by
  have some_led : (firstLed? tags steps nameAttributes).isSome = true := by
    rw [firstLed?_eq_find?_starts, List.find?_isSome]
    exact ⟨occurrence, inStarts, decide_eq_true led⟩
  rcases Option.isSome_iff_exists.mp some_led with ⟨found, first⟩
  refine ⟨found, first, ?_⟩
  apply Nat.le_of_not_lt
  intro earlier
  exact (firstLed?_eq_some_iff.mp first).2.2 occurrence inStarts earlier led

end XPath

namespace Query

open XPath

variable {text path : String} {settings : Settings} {position : Position}
  {occurrence : Occurrence}

theorem locate_eq_ok_iff :
    locate text path settings = .ok position ↔
      find (Tag.scan text) (Step.readPath path) settings.nameAttributes = some position := by
  rw [locate]
  by_cases noSteps : (Step.readPath path).isEmpty = true
  · have nothing : find (Tag.scan text) [] settings.nameAttributes = none := by
      rw [find_eq, Option.map_eq_none_iff, firstLed?, List.find?_eq_none]
      intro occurrence _
      simp [not_leadsTo_nil]
    simp [List.isEmpty_iff.mp noSteps, nothing]
  · simp only [noSteps]
    cases found : find (Tag.scan text) (Step.readPath path) settings.nameAttributes with
    | none => simp
    | some place => simp

theorem exists_firstLed?_of_locate (found : locate text path settings = .ok position) :
    ∃ occurrence, firstLed? (Tag.scan text) (Step.readPath path) settings.nameAttributes =
      some occurrence ∧ occurrence.tag.start = position := by
  rwa [locate_eq_ok_iff, find_eq, Option.map_eq_some_iff] at found

theorem locate_eq_ok_start_iff (inStarts : occurrence ∈ starts (Tag.scan text)) :
    locate text path settings = .ok occurrence.tag.start ↔
      firstLed? (Tag.scan text) (Step.readPath path) settings.nameAttributes =
        some occurrence := by
  rw [locate_eq_ok_iff, find_eq, Option.map_eq_some_iff]
  constructor
  · rintro ⟨found, first, sameStart⟩
    have foundStarts := (firstLed?_eq_some_iff.mp first).1
    rwa [Tag.eq_of_start_eq (mem_starts.mp foundStarts).1 (mem_starts.mp inStarts).1
      sameStart] at first
  · intro first
    exact ⟨occurrence, first, rfl⟩

end Query

end MarkupPath
