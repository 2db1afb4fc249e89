import MarkupPath.Proofs.Nesting.Address

/-!
# Outlines

The outline of a list of tags is what it says of the nesting of elements: where
elements start and end, and by which names. Closing tags without effect are not
in it, and an element without content starts and ends there like any other.

`Census` reads an outline alone and numbers the elements as it meets them. It
comes to the same addresses as the replay of the tags, so elements have the same
addresses in all lists of tags whose outlines agree as far as these elements.
-/

namespace MarkupPath

/-- The start or the end of an element. -/
inductive Mark
  | start (name : String)
  | stop (name : String)
deriving DecidableEq, Repr

namespace Mark

def isStart : Mark → Bool
  | .start _ => true
  | .stop _ => false

end Mark

namespace Ancestry

variable {Entry : Type} [Named Entry]

theorem close_of_closed {ancestry : Ancestry Entry} {name : String}
    (ends : (ancestry.closed? name).isSome = true) :
    (ancestry.close name).innermostFirst = ancestry.innermostFirst.tail := by
  rcases ancestry with ⟨entries⟩
  cases entries with
  | nil => rfl
  | cons entry outer =>
      have same : Named.nameOf entry = name := by
        simpa [closed?, innermost?, Option.filter] using ends
      simp [close, same]

theorem close_of_not_closed {ancestry : Ancestry Entry} {name : String}
    (stays : ¬(ancestry.closed? name).isSome = true) : ancestry.close name = ancestry := by
  rcases ancestry with ⟨entries⟩
  cases entries with
  | nil => rfl
  | cons entry outer =>
      have other : ¬Named.nameOf entry = name := by
        simpa [closed?, innermost?, Option.filter] using stays
      simp [close, other]

end Ancestry

namespace Occurrence

/-- What a tag says of the nesting of elements where these are open. -/
def marks (opened : Ancestry Occurrence) (tag : Tag) : List Mark :=
  match tag.kind with
  | .opening => [.start tag.name]
  | .selfClosing => [.start tag.name, .stop tag.name]
  | .closing => if (opened.closed? tag.name).isSome then [.stop tag.name] else []

def outline (tags : List Tag) : List Mark :=
  (all tags).flatMap fun occurrence =>
    marks (opened (tags.take occurrence.place)) occurrence.tag

theorem outline_concat (tags : List Tag) (tag : Tag) :
    outline (tags ++ [tag]) = outline tags ++ marks (opened tags) tag := by
  have unchanged : ((all tags).flatMap fun occurrence =>
      marks (opened ((tags ++ [tag]).take occurrence.place)) occurrence.tag) = outline tags := by
    apply List.flatMap_congr
    intro occurrence member
    rw [List.take_append_of_le_length (Nat.le_of_lt (place_lt_of_mem_all member))]
  rw [outline, all_concat, List.flatMap_append, unchanged, List.flatMap_singleton, List.take_left]

end Occurrence

/-- What a reader of outlines remembers. -/
@[ext]
structure Census where
  /-- The labels of the open elements, from the innermost. -/
  around : List (String × Nat) := []
  /-- The addresses of the elements so far. -/
  met : List (List (String × Nat)) := []

namespace Census

/-- The address is that of an element with this name which these labels surround. -/
def isAt (around : List (String × Nat)) (name : String) : List (String × Nat) → Bool
  | [] => false
  | (own, _) :: outer => own = name && outer = around

def visit (census : Census) : Mark → Census
  | .start name =>
      let own := (name, census.met.countP (isAt census.around name) + 1) :: census.around
      ⟨own, census.met ++ [own]⟩
  | .stop _ => { census with around := census.around.tail }

def ofMarks (marks : List Mark) : Census :=
  marks.foldl visit {}

theorem exists_met_foldl (marks : List Mark) (census : Census) :
    ∃ more, (marks.foldl visit census).met = census.met ++ more ∧
      more.length = marks.countP Mark.isStart := by
  induction marks generalizing census with
  | nil => exact ⟨[], by simp, rfl⟩
  | cons mark marks ih =>
      rcases ih (census.visit mark) with ⟨more, met, length⟩
      cases mark with
      | start name =>
          rw [visit, List.append_assoc, List.singleton_append] at met
          exact ⟨_, met, by rw [List.length_cons, length, List.countP_cons_of_pos rfl]⟩
      | stop name =>
          exact ⟨more, met, by rw [length, List.countP_cons_of_neg Bool.false_ne_true]⟩

/-- As far as the marks that are read first go, the marks after them change nothing. -/
theorem take_met_append (marks more : List Mark) {count : Nat}
    (reached : count ≤ marks.countP Mark.isStart) :
    (ofMarks (marks ++ more)).met.take count = (ofMarks marks).met.take count := by
  rcases exists_met_foldl more (ofMarks marks) with ⟨later, metLater, -⟩
  rcases exists_met_foldl marks {} with ⟨first, met, length⟩
  have enough : count ≤ (ofMarks marks).met.length := by
    rwa [ofMarks, met, List.nil_append, length]
  rw [ofMarks, List.foldl_append, ← ofMarks, metLater, List.take_append_of_le_length enough]

open Occurrence

/-- The census that is true of a list of tags. -/
def ofTags (tags : List Tag) : Census where
  around := surroundings tags tags.length
  met := (starts tags).map (address tags)

/-- The elements that have been met with the same surroundings are the siblings. -/
theorem countP_met (tags : List Tag) (name : String) :
    (ofTags tags).met.countP (isAt (ofTags tags).around name) =
      started tags (opened tags).innermost? name := by
  have whole : (opened tags).innermost? = parent? tags tags.length := by
    rw [parent?, List.take_length]
  rw [ofTags, List.countP_map, starts, List.countP_filter, started]
  apply List.countP_congr
  intro occurrence member
  simp only [Function.comp_apply, isAt, address, label, Bool.and_eq_true, decide_eq_true_eq, whole,
    parent?_eq_iff]
  constructor
  · rintro ⟨⟨sameName, sameAround⟩, start⟩
    exact ⟨⟨start, sameName⟩, sameAround⟩
  · rintro ⟨⟨start, sameName⟩, sameAround⟩
    exact ⟨⟨sameName, sameAround⟩, start⟩

variable {tags : List Tag} {tag : Tag}

theorem visit_start (start : tag.isStartTag = true) :
    (ofTags tags).visit (.start tag.name) =
      ⟨address (tags ++ [tag]) ⟨tag, tags.length⟩, (ofTags (tags ++ [tag])).met⟩ := by
  have number : siblingNumber (tags ++ [tag]) ⟨tag, tags.length⟩ =
      started tags (opened tags).innermost? tag.name + 1 := siblingNumber_length [] start
  have own : address (tags ++ [tag]) ⟨tag, tags.length⟩ =
      (tag.name, started tags (opened tags).innermost? tag.name + 1) :: (ofTags tags).around := by
    rw [address, label, number, surroundings_append [tag] (Nat.le_refl _)]
    rfl
  rw [visit, countP_met, ← own]
  simp [ofTags, starts_concat, start, map_address_starts_append]

theorem met_closing (closing : tag.kind = .closing) :
    (ofTags (tags ++ [tag])).met = (ofTags tags).met := by
  have noStart : ¬tag.isStartTag = true := by simp [Tag.isStartTag, closing]
  simp [ofTags, starts_concat, noStart, map_address_starts_append]

theorem map_label_opened (more : List Tag) :
    (opened tags).innermostFirst.map (label (tags ++ more)) = (ofTags tags).around := by
  have unchanged := surroundings_append more (Nat.le_refl tags.length)
  rwa [surroundings, List.take_left] at unchanged

theorem around_concat (tags : List Tag) (tag : Tag) :
    (ofTags (tags ++ [tag])).around =
      (openAfter (opened tags) ⟨tag, tags.length⟩).innermostFirst.map (label (tags ++ [tag])) := by
  rw [ofTags, surroundings, List.take_length, opened_concat]

/-- Reading what a tag says of the nesting of elements keeps a census true. -/
theorem foldl_marks (tags : List Tag) (tag : Tag) :
    (marks (opened tags) tag).foldl visit (ofTags tags) = ofTags (tags ++ [tag]) := by
  have around := around_concat tags tag
  cases kind : tag.kind with
  | opening =>
      have start : tag.isStartTag = true := by simp [Tag.isStartTag, kind]
      simp only [openAfter, kind, Ancestry.push, List.map_cons, map_label_opened] at around
      have inside : address (tags ++ [tag]) ⟨tag, tags.length⟩ =
          (ofTags (tags ++ [tag])).around := by
        rw [around, address, surroundings_append [tag] (Nat.le_refl _)]
        rfl
      rw [marks, kind, List.foldl_cons, List.foldl_nil, visit_start start, inside]
  | selfClosing =>
      have start : tag.isStartTag = true := by simp [Tag.isStartTag, kind]
      simp only [openAfter, kind, map_label_opened] at around
      have outside : (address (tags ++ [tag]) ⟨tag, tags.length⟩).tail =
          (ofTags (tags ++ [tag])).around := by
        rw [around, address, List.tail_cons, surroundings_append [tag] (Nat.le_refl _)]
        rfl
      rw [marks, kind, List.foldl_cons, List.foldl_cons, List.foldl_nil, visit_start start, visit,
        outside]
  | closing =>
      have met : (ofTags (tags ++ [tag])).met = (ofTags tags).met := met_closing kind
      simp only [openAfter, kind] at around
      rw [marks, kind]
      by_cases ends : ((opened tags).closed? tag.name).isSome = true
      · rw [Ancestry.close_of_closed ends, List.map_tail, map_label_opened] at around
        simp only [ends, if_true, List.foldl_cons, List.foldl_nil, visit]
        rw [← around, ← met]
      · rw [Ancestry.close_of_not_closed ends, map_label_opened] at around
        simp only [ends]
        exact Census.ext around.symm met.symm

/-- Reading an outline gives the addresses of the elements. -/
theorem ofMarks_outline (tags : List Tag) : ofMarks (outline tags) = ofTags tags := by
  induction tags using List.reverseRecOn with
  | nil => rfl
  | append_singleton tags tag ih =>
      rw [ofMarks, outline_concat, List.foldl_append, ← ofMarks, ih, foldl_marks]

end Census

namespace Occurrence

/-- Where two outlines agree, the elements that start there have the same addresses. -/
theorem take_map_address_eq {tags others : List Tag} {shared : List Mark}
    (first : shared <+: outline tags) (second : shared <+: outline others) {count : Nat}
    (reached : count ≤ shared.countP Mark.isStart) :
    ((starts tags).map (address tags)).take count =
      ((starts others).map (address others)).take count := by
  rcases first with ⟨more, first⟩
  rcases second with ⟨moreOthers, second⟩
  have left := Census.take_met_append shared more reached
  have right := Census.take_met_append shared moreOthers reached
  rw [first, Census.ofMarks_outline] at left
  rw [second, Census.ofMarks_outline] at right
  exact left.trans right.symm

end Occurrence

end MarkupPath
