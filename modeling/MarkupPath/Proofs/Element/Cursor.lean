import Mathlib.Data.List.TakeWhile
import MarkupPath.Proofs.Element.Enclosing
import MarkupPath.Proofs.Nesting.Address

/-!
# The cursor and the tags it touches

A cursor touches the tag it is inside of, and at most the two tags that meet at
it. The tags of a text fall into those that end before the cursor, those that it
touches and those that start after it. Only the last start tag that it touches
matters for the elements around it; if it touches none, whatever closing tags it
touches are not yet in effect, and what counts is what is open after the tags
that end before it.
-/

namespace MarkupPath

namespace Occurrence

/-- The start tags that an offset is inside of or at one end of. -/
def touching (tags : List Tag) (offset : Nat) : List Occurrence :=
  (starts tags).filter (·.tag.covers offset)

/-- The elements around an offset, from the outermost. -/
def around (tags : List Tag) (offset : Nat) : List Occurrence :=
  match (touching tags offset).getLast? with
  | some last => chain tags last
  | none => (opened (tags.filter (·.stop < offset))).toList

theorem touching_concat (tags : List Tag) (tag : Tag) (offset : Nat) :
    touching (tags ++ [tag]) offset =
      touching tags offset ++
        if tag.isStartTag && tag.covers offset then [⟨tag, tags.length⟩] else [] := by
  rw [touching, starts_concat, List.filter_append, touching]
  cases start : tag.isStartTag with
  | false => simp
  | true => simp [List.filter_singleton]

theorem touching_append_of_beyond {tags beyond : List Tag} {offset : Nat}
    (beyond_gt : ∀ tag ∈ beyond, offset < tag.offset) :
    touching (tags ++ beyond) offset = touching tags offset := by
  induction beyond using List.reverseRecOn with
  | nil => rw [List.append_nil]
  | append_singleton beyond tag ih =>
      have tag_gt : offset < tag.offset := beyond_gt tag (by simp)
      have uncovered : tag.covers offset = false := by
        rw [Tag.covers, decide_eq_false (Nat.not_le.mpr tag_gt), Bool.false_and]
      rw [← List.append_assoc, touching_concat, uncovered,
        ih fun earlier member => beyond_gt earlier (List.mem_append_left _ member)]
      simp

theorem chain_append {tags : List Tag} {occurrence : Occurrence} (more : List Tag)
    (within : occurrence.place ≤ tags.length) :
    chain (tags ++ more) occurrence = chain tags occurrence := by
  rw [chain, List.take_append_of_le_length within, chain]

theorem mem_starts_of_last_touching {tags : List Tag} {offset : Nat} {last : Occurrence}
    (touched : (touching tags offset).getLast? = some last) :
    last ∈ starts tags ∧ last.tag.covers offset = true :=
  List.mem_filter.mp (List.mem_of_getLast? touched)

theorem place_lt_of_last_touching {tags : List Tag} {offset : Nat} {last : Occurrence}
    (touched : (touching tags offset).getLast? = some last) : last.place < tags.length :=
  place_lt_of_mem_all (mem_starts.mp (mem_starts_of_last_touching touched).1).1

/-- Elements are open from the outermost to the innermost in the order in which they started. -/
theorem opened_pairwise (tags : List Tag) :
    (opened tags).toList.Pairwise fun outer inner => outer.place < inner.place := by
  rw [Ancestry.toList, List.pairwise_reverse]
  induction tags using List.reverseRecOn with
  | nil => exact List.Pairwise.nil
  | append_singleton tags tag ih =>
      rw [opened_concat]
      rcases openAfter_cases (opened tags) ⟨tag, tags.length⟩ with
        ⟨-, pushed⟩ | ⟨closed, kept⟩
      · rw [pushed, List.pairwise_cons]
        exact ⟨fun outer isOpen => place_lt_of_mem_opened isOpen, ih⟩
      · rw [kept] at ih
        exact (List.pairwise_append.mp ih).2.1

theorem chain_pairwise (tags : List Tag) (occurrence : Occurrence) :
    (chain tags occurrence).Pairwise fun outer inner => outer.place < inner.place := by
  rw [chain, List.pairwise_append]
  refine ⟨opened_pairwise _, List.pairwise_singleton _ _, ?_⟩
  intro outer isOpen inner isOwn
  rw [List.mem_singleton.mp isOwn]
  have earlier := place_lt_of_mem_opened (List.mem_reverse.mp isOpen)
  rw [List.length_take, Nat.lt_min] at earlier
  exact earlier.1

end Occurrence

namespace Element.Trail

open Occurrence (touching chain)

/-- The path that a pass remembers of the start tags is the chain of the last one it touched. -/
theorem inTag_foldl (offset : Nat) (tags : List Tag) :
    (tags.foldl (visit offset) {}).inTag =
      (touching tags offset).getLast?.map fun last => (chain tags last).map ofOccurrence := by
  induction tags using List.reverseRecOn with
  | nil => rfl
  | append_singleton tags tag ih =>
      rw [List.foldl_append, List.foldl_cons, List.foldl_nil, Occurrence.touching_concat]
      cases touched : tag.isStartTag && tag.covers offset with
      | true =>
          have own : chain (tags ++ [tag]) ⟨tag, tags.length⟩ =
              (Occurrence.opened tags).toList ++ [⟨tag, tags.length⟩] := by
            rw [chain, List.take_left]
          simp only [visit, touched, if_true, opened_foldl, foldl_openAfter,
            List.getLast?_concat, Option.map_some, own, List.map_append, List.map_cons,
            List.map_nil, Ancestry.toList, List.map_reverse]
          rfl
      | false =>
          -- The chain of an earlier tag does not see the tags after it.
          simp only [visit, touched, Bool.false_eq_true, if_false, List.append_nil, ih]
          apply Option.map_congr
          intro last isLast
          rw [Occurrence.chain_append [tag]
            (Nat.le_of_lt (Occurrence.place_lt_of_last_touching isLast))]

/-- What was open before the first tag that reaches the offset is not forgotten. -/
theorem inContent_foldl {offset : Nat} {trail : Trail} {path : List Element}
    (taken : trail.inContent = some path) (tags : List Tag) :
    (tags.foldl (visit offset) trail).inContent = some path := by
  induction tags generalizing trail with
  | nil => exact taken
  | cons tag tags ih =>
      apply ih
      simp [visit, taken]

end Element.Trail

/-- If elements with a property come first, all that is left behind them is without it. -/
theorem not_of_mem_dropWhile {α : Type} {keeps : α → Bool} {list : List α}
    (downward : list.Pairwise fun earlier later => keeps later = true → keeps earlier = true) :
    ∀ element ∈ list.dropWhile keeps, keeps element = false := by
  induction list with
  | nil => simp
  | cons first rest ih =>
      rw [List.pairwise_cons] at downward
      cases kept : keeps first with
      | true =>
          rw [List.dropWhile_cons_of_pos kept]
          exact ih downward.2
      | false =>
          rw [List.dropWhile_cons_of_neg (by simp [kept])]
          intro element member
          rcases List.mem_cons.mp member with rfl | member
          · exact kept
          · have onlyIf := downward.1 element member
            rw [kept] at onlyIf
            simpa using onlyIf

namespace Tag

theorem covers_iff {tag : Tag} {offset : Nat} :
    tag.covers offset = true ↔ tag.offset ≤ offset ∧ offset ≤ tag.stop := by
  simp [covers]

/-- The tags of a text as an offset divides them. -/
structure Cut (text : String) (offset : Nat) (ended touched beyond : List Tag) : Prop where
  split : scan text = ended ++ touched ++ beyond
  ended_lt : ∀ tag ∈ ended, tag.stop < offset
  touched_covers : ∀ tag ∈ touched, tag.covers offset = true
  beyond_gt : ∀ tag ∈ beyond, offset < tag.offset

theorem exists_cut (text : String) (offset : Nat) :
    ∃ ended touched beyond, Cut text offset ended touched beyond := by
  have stops : (scan text).Pairwise fun earlier later =>
      decide (later.stop < offset) = true → decide (earlier.stop < offset) = true := by
    refine (scan_pairwise text).imp ?_
    intro earlier later order ends
    have offset_le : later.offset ≤ later.stop := Nat.le_add_right _ _
    simp only [decide_eq_true_eq] at ends ⊢
    omega
  have begins : (scan text).Pairwise fun earlier later =>
      decide (later.offset ≤ offset) = true → decide (earlier.offset ≤ offset) = true := by
    refine (scan_offset_lt text).imp ?_
    intro earlier later order starts
    simp only [decide_eq_true_eq] at starts ⊢
    omega
  -- Offsets and stops both grow from tag to tag, so each of the two bounds cuts the list once.
  let rest := (scan text).dropWhile (·.stop < offset)
  have rest_begins := begins.sublist (List.dropWhile_sublist (·.stop < offset))
  refine ⟨(scan text).takeWhile (·.stop < offset), rest.takeWhile (·.offset ≤ offset),
    rest.dropWhile (·.offset ≤ offset), ?_, ?_, ?_, ?_⟩
  · rw [List.append_assoc, List.takeWhile_append_dropWhile, List.takeWhile_append_dropWhile]
  · intro tag member
    simpa using List.mem_takeWhile_imp member
  · intro tag member
    have reaches := not_of_mem_dropWhile stops tag ((List.takeWhile_sublist _).mem member)
    exact covers_iff.mpr ⟨by simpa using List.mem_takeWhile_imp member, by simpa using reaches⟩
  · intro tag member
    simpa using not_of_mem_dropWhile rest_begins tag member

namespace Cut

open Occurrence (touching chain opened around all)
open Element (Trail ofOccurrence enclosingIn)

variable {text : String} {offset : Nat} {ended touched beyond : List Tag}

theorem takeWhile_offset_le (cut : Cut text offset ended touched beyond) :
    (scan text).takeWhile (·.offset ≤ offset) = ended ++ touched := by
  rw [cut.split]
  refine Element.takeWhile_offset_le ?_ cut.beyond_gt
  intro tag member
  rcases List.mem_append.mp member with member | member
  · have stop_lt := cut.ended_lt tag member
    rw [stop] at stop_lt
    omega
  · exact (covers_iff.mp (cut.touched_covers tag member)).1

theorem filter_stop_lt (cut : Cut text offset ended touched beyond) :
    (scan text).filter (·.stop < offset) = ended := by
  have none_touched : touched.filter (·.stop < offset) = [] := by
    rw [List.filter_eq_nil_iff]
    intro tag member
    have covered := covers_iff.mp (cut.touched_covers tag member)
    simpa using covered.2
  have none_beyond : beyond.filter (·.stop < offset) = [] := by
    rw [List.filter_eq_nil_iff]
    intro tag member
    have offset_lt := cut.beyond_gt tag member
    have offset_le : tag.offset ≤ tag.stop := Nat.le_add_right _ _
    simp only [decide_eq_true_eq]
    omega
  have all_ended : ended.filter (·.stop < offset) = ended := by
    rw [List.filter_eq_self]
    simpa using cut.ended_lt
  rw [cut.split, List.filter_append, List.filter_append, all_ended, none_touched, none_beyond,
    List.append_nil, List.append_nil]

theorem touching_scan (cut : Cut text offset ended touched beyond) :
    touching (scan text) offset = touching (ended ++ touched) offset := by
  rw [cut.split, Occurrence.touching_append_of_beyond cut.beyond_gt]

/-- A pass remembers what was open when the tags that end before the offset had been met. -/
theorem inContent_getD (cut : Cut text offset ended touched beyond) :
    let trail := (ended ++ touched).foldl (Trail.visit offset) {}
    trail.inContent.getD trail.opened.toList = (opened ended).toList.map ofOccurrence := by
  have before : ended.foldl (Trail.visit offset) {} =
      { opened := ⟨(opened ended).innermostFirst.map ofOccurrence⟩ } := by
    rw [Trail.foldl_of_stop_lt cut.ended_lt, Element.foldl_openAfter]
  rw [List.foldl_append, before]
  cases reached : touched with
  | nil => simp [Ancestry.toList]
  | cons first rest =>
      -- The first tag that the offset touches is the first that reaches it.
      have covered := covers_iff.mp (cut.touched_covers first (by simp [reached]))
      have taken : (Trail.visit offset
          { opened := ⟨(opened ended).innermostFirst.map ofOccurrence⟩ } first).inContent =
            some ((opened ended).toList.map ofOccurrence) := by
        simp [Trail.visit, covered.2, Ancestry.toList]
      simp only [List.foldl_cons, Trail.inContent_foldl taken, Option.getD_some]

/-- The elements that a pass finds are those around the offset. -/
theorem enclosingIn_eq (cut : Cut text offset ended touched beyond) :
    enclosingIn text offset = (around (scan text) offset).map ofOccurrence := by
  rw [enclosingIn, Element.enclosing_eq, cut.takeWhile_offset_le]
  simp only [Trail.inTag_foldl, cut.inContent_getD]
  rw [around, cut.touching_scan, cut.filter_stop_lt]
  cases last : (touching (ended ++ touched) offset).getLast? with
  | none => rfl
  | some occurrence =>
      have within := Nat.le_of_lt (Occurrence.place_lt_of_last_touching last)
      rw [Option.map_some, Option.getD_some, cut.split]
      simp only [Occurrence.chain_append beyond within]

/-- The elements around an offset are elements of the text that start at the offset or before. -/
theorem mem_all_of_mem_around (cut : Cut text offset ended touched beyond) {element : Occurrence}
    (member : element ∈ around (scan text) offset) :
    element ∈ all (scan text) ∧ element.tag.offset ≤ offset := by
  rw [around] at member
  cases last : (touching (scan text) offset).getLast? with
  | none =>
      rw [last, cut.filter_stop_lt] at member
      rcases Occurrence.openedInside_of_mem (List.mem_reverse.mp member) with ⟨outer, inside⟩
      have inScan := (inside.append (touched ++ beyond)).member
      rw [← List.append_assoc, ← cut.split] at inScan
      have inEnded := List.mem_of_getElem? (Occurrence.mem_all.mp inside.member)
      have stop_lt := cut.ended_lt element.tag inEnded
      rw [stop] at stop_lt
      exact ⟨inScan, by omega⟩
  | some occurrence =>
      rw [last] at member
      rcases Occurrence.mem_starts_of_last_touching last with ⟨lastStarts, covered⟩
      have lastIn := (Occurrence.mem_starts.mp lastStarts).1
      have inScan := (Occurrence.mem_starts.mp
        (Occurrence.mem_starts_of_mem_chain lastStarts member)).1
      have offset_le := (offset_le_iff_place_le inScan lastIn).mpr
        (Occurrence.place_le_of_mem_chain member)
      exact ⟨inScan, Nat.le_trans offset_le (covers_iff.mp covered).1⟩

end Cut

end Tag

namespace Occurrence

theorem around_pairwise (tags : List Tag) (offset : Nat) :
    (around tags offset).Pairwise fun outer inner => outer.place < inner.place := by
  rw [around]
  cases (touching tags offset).getLast? with
  | none => exact opened_pairwise _
  | some last => exact chain_pairwise tags last

/-- No element is around an offset only if no start tag is there and none is open. -/
theorem around_eq_nil_iff {tags : List Tag} {offset : Nat} :
    around tags offset = [] ↔
      (∀ tag ∈ tags, tag.isStartTag = true → tag.covers offset = false) ∧
        opened (tags.filter (·.stop < offset)) = .empty := by
  rw [around]
  constructor
  · intro isNil
    cases last : (touching tags offset).getLast? with
    | some occurrence => simp [last, chain] at isNil
    | none =>
        rw [List.getLast?_eq_none_iff] at last
        constructor
        · intro tag member start
          rcases exists_mem_starts member start with ⟨occurrence, inStarts, rfl⟩
          have untouched : occurrence ∉ touching tags offset := by simp [last]
          simpa [touching, inStarts] using untouched
        · rw [last] at isNil
          exact congrArg Ancestry.mk (List.reverse_eq_nil_iff.mp isNil)
  · rintro ⟨uncovered, noneOpen⟩
    have last : touching tags offset = [] := by
      rw [touching, List.filter_eq_nil_iff]
      intro occurrence inStarts
      rcases mem_starts.mp inStarts with ⟨member, start⟩
      simp [uncovered occurrence.tag (List.mem_of_getElem? (mem_all.mp member)) start]
    rw [last, noneOpen]
    rfl

end Occurrence

namespace Element

open Occurrence (around opened)

/--
The elements around an offset are those of the tolerant replay. They start one after the other, none
of them after the offset, and there are none only where no start tag is touched and nothing is open.
-/
theorem enclosingIn_eq_around (text : String) (offset : Nat) :
    enclosingIn text offset = (around (Tag.scan text) offset).map ofOccurrence ∧
      ((enclosingIn text offset).Pairwise fun outer inner => outer.offset < inner.offset) ∧
      (∀ element ∈ enclosingIn text offset, element.offset ≤ offset) ∧
      (enclosingIn text offset = [] ↔
        (∀ tag ∈ Tag.scan text, tag.isStartTag = true → tag.covers offset = false) ∧
          opened ((Tag.scan text).filter (·.stop < offset)) = .empty) := by
  rcases Tag.exists_cut text offset with ⟨ended, touched, beyond, cut⟩
  rw [cut.enclosingIn_eq]
  refine ⟨rfl, ?_, ?_, ?_⟩
  · rw [List.pairwise_map]
    refine (Occurrence.around_pairwise (Tag.scan text) offset).imp_of_mem ?_
    intro outer inner outerAround innerAround order
    exact Tag.offset_lt_of_place_lt (cut.mem_all_of_mem_around outerAround).1
      (cut.mem_all_of_mem_around innerAround).1 order
  · intro element member
    rcases List.mem_map.mp member with ⟨occurrence, isAround, rfl⟩
    exact (cut.mem_all_of_mem_around isAround).2
  · rw [List.map_eq_nil_iff]
    exact Occurrence.around_eq_nil_iff

/-- Where two closing tags meet, neither of the elements they end has been left. -/
theorem enclosingIn_between_closing :
    ∃ inner ∈ enclosingIn "<a><b></b></a>" 10, inner.name = "b" ∧ inner.offset ≤ 10 := by
  have inside : ofTag ⟨.opening, "b", .empty, ⟨3, 0, 3⟩, "<b>"⟩ ∈
      enclosingIn "<a><b></b></a>" 10 := by
    decide +kernel
  exact ⟨_, inside, rfl, (enclosingIn_eq_around "<a><b></b></a>" 10).2.2.1 _ inside⟩

end Element

end MarkupPath
