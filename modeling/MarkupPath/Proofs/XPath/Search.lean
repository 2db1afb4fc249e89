import MarkupPath.Proofs.XPath.Tracking

/-!
# Results of a search

A search finds the first start tag to which its steps lead along the chain of
the elements around it. It reads the tags once and gives up what it matched in an
element that fails, but it misses nothing by this and finds nothing else.
-/

namespace MarkupPath.XPath

open Occurrence (all chain siblingNumber)

/-- The steps accept the elements around an occurrence one by one, down to its own. -/
def LeadsTo (tags : List Tag) (steps : List Step) (nameAttributes : List String)
    (occurrence : Occurrence) : Prop :=
  List.Forall₂ (fun step member => Step.acceptsIn tags nameAttributes step member = true) steps
    (chain tags occurrence)

instance (tags : List Tag) (steps : List Step) (nameAttributes : List String) :
    DecidablePred (LeadsTo tags steps nameAttributes) :=
  fun _ => inferInstanceAs (Decidable (List.Forall₂ _ _ _))

/-- The first start tag to which the steps lead. -/
def firstLed? (tags : List Tag) (steps : List Step) (nameAttributes : List String) :
    Option Occurrence :=
  (all tags).find? fun occurrence =>
    occurrence.tag.isStartTag = true ∧ LeadsTo tags steps nameAttributes occurrence

namespace Search

variable {tag : Tag} {search : Search} {steps : List Step} {nameAttributes : List String}
  {before after : List Tag}

theorem completes_iff
    (tracks : Tracks (before ++ tag :: after) steps nameAttributes before search) :
    search.completes steps nameAttributes tag = true ↔
      tag.isStartTag = true ∧
        LeadsTo (before ++ tag :: after) steps nameAttributes ⟨tag, before.length⟩ := by
  rw [LeadsTo, chain, List.take_left, forall₂_concat_iff, completes, Bool.and_eq_true,
    Bool.and_eq_true, decide_eq_true_eq, and_assoc]
  apply and_congr_right
  intro start
  rw [accepts_iff start tracks]
  apply and_congr_right
  intro more
  rw [length_matched tracks, more.matchedLength_eq]

theorem drop_all (before : List Tag) (tag : Tag) (after : List Tag) :
    (all (before ++ tag :: after)).drop before.length =
      ⟨tag, before.length⟩ :: (all (before ++ tag :: after)).drop (before.length + 1) := by
  rw [List.drop_eq_getElem_cons (by simp [all])]
  simp [all]

theorem run_eq (before : List Tag)
    (tracks : Tracks (before ++ after) steps nameAttributes before search) :
    run search steps nameAttributes after =
      (((all (before ++ after)).drop before.length).find? fun occurrence =>
        occurrence.tag.isStartTag = true ∧
          LeadsTo (before ++ after) steps nameAttributes occurrence).map (·.tag.start) := by
  -- A tag that does not complete the path is noted, and the rest is read from there.
  induction after generalizing before search with
  | nil =>
      have rest : (all (before ++ [])).drop before.length = [] := by simp [all]
      rw [rest]
      rfl
  | cons tag after ih =>
      rw [drop_all, run]
      by_cases here : search.completes steps nameAttributes tag = true
      · have led := (completes_iff tracks).mp here
        rw [List.find?_cons_of_pos (by simpa using led), if_pos here]
        rfl
      · have notLed := fun led => here ((completes_iff tracks).mpr led)
        rw [List.find?_cons_of_neg (by simpa using notLed), if_neg here]
        have rest := tracks_visit tracks
        have whole : before ++ tag :: after = (before ++ [tag]) ++ after := by simp
        rw [whole] at rest ⊢
        rw [ih (before ++ [tag]) rest, List.length_append, List.length_singleton]

theorem tracks_nil (tags : List Tag) (steps : List Step) (nameAttributes : List String) :
    Tracks tags steps nameAttributes [] {} := by
  exact ⟨⟨List.Forall₂.nil, fun _ => rfl⟩, by simp⟩

end Search

theorem find_eq (tags : List Tag) (steps : List Step) (nameAttributes : List String) :
    find tags steps nameAttributes =
      (firstLed? tags steps nameAttributes).map (·.tag.start) := by
  exact Search.run_eq [] (Search.tracks_nil tags steps nameAttributes)

/-- What a step of a path is written with. -/
structure Demand where
  tag : String
  index : Option Nat
  name : Option String
deriving DecidableEq, Repr

namespace Demand

/-- The step that is written so. -/
def step (demand : Demand) : Step :=
  Step.ofParts demand.tag demand.index demand.name

/-- A tag with a number among its siblings is what the step asks for. -/
def MetBy (demand : Demand) (nameAttributes : List String) (tag : Tag) (number : Nat) : Prop :=
  tag.name = demand.tag ∧
    match demand.name, demand.index with
    | some name, _ => tag.attributes.firstFilled nameAttributes = some name
    | none, some index => number = index
    | none, none => number = 1

theorem metBy_iff (demand : Demand) (nameAttributes : List String) (tag : Tag) (number : Nat) :
    demand.MetBy nameAttributes tag number ↔
      demand.step.accepts nameAttributes tag number = true := by
  rw [Step.accepts_iff]
  rcases demand with ⟨wanted, index, name⟩
  cases name with
  | some name => rfl
  | none => cases index <;> rfl

/-- Every element around an occurrence, down to its own, is what its step asks for. -/
def AllMet (tags : List Tag) (demands : List Demand) (nameAttributes : List String)
    (occurrence : Occurrence) : Prop :=
  List.Forall₂ (fun demand member =>
    demand.MetBy nameAttributes member.tag (siblingNumber tags member)) demands
      (chain tags occurrence)

theorem allMet_iff (tags : List Tag) (demands : List Demand) (nameAttributes : List String)
    (occurrence : Occurrence) :
    AllMet tags demands nameAttributes occurrence ↔
      LeadsTo tags (demands.map step) nameAttributes occurrence := by
  simp only [AllMet, LeadsTo, List.forall₂_map_left_iff, metBy_iff, Step.acceptsIn]

instance (tags : List Tag) (demands : List Demand) (nameAttributes : List String) :
    DecidablePred (AllMet tags demands nameAttributes) :=
  fun occurrence => decidable_of_iff _ (allMet_iff tags demands nameAttributes occurrence).symm

theorem not_allMet_nil (tags : List Tag) (nameAttributes : List String) (occurrence : Occurrence) :
    ¬AllMet tags [] nameAttributes occurrence := by
  intro met
  have empty := met.length_eq
  simp [chain] at empty

/--
A search finds the first start tag around which every element, down to its own, is
what its step asks for. It finds nothing if there are no steps or no such start tag,
and only then.
-/
theorem find_eq_first_allMet (tags : List Tag) (demands : List Demand)
    (nameAttributes : List String) :
    find tags (demands.map step) nameAttributes =
        ((all tags).find? fun occurrence =>
          occurrence.tag.isStartTag = true ∧
            AllMet tags demands nameAttributes occurrence).map (·.tag.start) ∧
      (find tags (demands.map step) nameAttributes = none ↔
        demands = [] ∨ ∀ occurrence ∈ all tags, occurrence.tag.isStartTag = true →
          ¬AllMet tags demands nameAttributes occurrence) := by
  have found : find tags (demands.map step) nameAttributes =
      ((all tags).find? fun occurrence =>
        occurrence.tag.isStartTag = true ∧
          AllMet tags demands nameAttributes occurrence).map (·.tag.start) := by
    rw [find_eq, firstLed?]
    simp only [allMet_iff]
  refine ⟨found, ?_⟩
  rw [found, Option.map_eq_none_iff, List.find?_eq_none]
  simp only [decide_eq_true_eq, not_and]
  constructor
  · exact Or.inr
  · rintro (rfl | noneMet)
    · exact fun occurrence _ _ => not_allMet_nil tags nameAttributes occurrence
    · exact noneMet

end Demand

end MarkupPath.XPath
