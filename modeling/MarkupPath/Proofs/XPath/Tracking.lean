import MarkupPath.Proofs.Nesting.Numbering
import MarkupPath.Proofs.XPath.Matching
import MarkupPath.XPath.Search

/-!
# What a search remembers

A search keeps no chains of elements. `Tracks` says what its counts and its
depths have to do with the tags that it has read: every open element has the
count of the start tags met under it, and the depths are those of the elements
that the steps have matched along the chain of the open elements. Every tag that
a search takes note of keeps this up.
-/

namespace MarkupPath.XPath

open Occurrence (started started_concat siblingNumber siblingNumber_length place_lt_of_innermost)

namespace Tally

theorem count_bump (tally : Tally) (name other : String) :
    (tally.bump name).count other = tally.count other + if name = other then 1 else 0 := by
  rw [bump, count, NameTable.get?_insert]
  by_cases same : other = name
  · simp [same]
  · have different : ¬name = other := fun equal => same equal.symm
    simp [same, different, count]

end Tally

/-- A frame stands for an open element and counts the start tags that were met in it. -/
structure Frame.Counts (tags : List Tag) (frame : Frame) (occurrence : Occurrence) : Prop where
  name_eq : frame.name = occurrence.tag.name
  count_eq : ∀ name, frame.children.count name = started tags (some occurrence) name

namespace Search

/-- The counts of a search are those of the tags, where these elements are open. -/
structure Counts (tags : List Tag) (opened : List Occurrence) (search : Search) : Prop where
  frames : List.Forall₂ (Frame.Counts tags) search.opened.innermostFirst opened
  topLevel : ∀ name, search.topLevel.count name = started tags none name

variable {tags : List Tag} {tag : Tag} {search : Search}

theorem Counts.depth_eq {stack : List Occurrence} (counts : Counts tags stack search) :
    search.opened.depth = stack.length :=
  counts.frames.length_eq

theorem Counts.nextIndex_eq {stack : List Occurrence} (counts : Counts tags stack search)
    (name : String) : search.nextIndex name = started tags stack.head? name + 1 := by
  rcases search with ⟨⟨frames⟩, topLevel, matched⟩
  rcases counts with ⟨framesCount, topLevelCount⟩
  cases framesCount with
  | nil => simp [nextIndex, siblings, Ancestry.innermost?, topLevelCount]
  | cons counted => simp [nextIndex, siblings, Ancestry.innermost?, counted.count_eq]

theorem frames_kept {frames : List Frame} {outer : List Occurrence}
    (counted : List.Forall₂ (Frame.Counts tags) frames outer)
    (kept : ∀ occurrence ∈ outer, ∀ name,
      started (tags ++ [tag]) (some occurrence) name = started tags (some occurrence) name) :
    List.Forall₂ (Frame.Counts (tags ++ [tag])) frames outer := by
  induction counted with
  | nil => exact List.Forall₂.nil
  | cons first rest ih =>
      refine List.Forall₂.cons ⟨first.name_eq, ?_⟩ (ih ?_)
      · intro name
        rw [first.count_eq, kept _ List.mem_cons_self]
      · intro occurrence member
        exact kept occurrence (List.mem_cons_of_mem _ member)

/-- A start tag is counted for the innermost open element alone. -/
theorem Counts.bump (start : tag.isStartTag = true)
    (counts : Counts tags (Occurrence.opened tags).innermostFirst search) :
    Counts (tags ++ [tag]) (Occurrence.opened tags).innermostFirst (search.bump tag.name) := by
  rcases search with ⟨⟨frames⟩, topLevel, matched⟩
  rcases counts with ⟨framesCount, topLevelCount⟩
  simp only at framesCount topLevelCount
  cases isOpen : (Occurrence.opened tags).innermostFirst with
  | nil =>
      rw [isOpen, List.forall₂_nil_right_iff] at framesCount
      subst framesCount
      refine ⟨List.Forall₂.nil, ?_⟩
      intro name
      simp [Search.bump, Ancestry.isEmpty, Tally.count_bump, topLevelCount, started_concat, start,
        Ancestry.innermost?, isOpen]
  | cons parent outer =>
      rw [isOpen] at framesCount
      cases framesCount with
      | cons first rest =>
          rename_i frame frames
          refine ⟨List.Forall₂.cons ⟨first.name_eq, ?_⟩ (frames_kept rest ?_), ?_⟩
          · intro name
            simp [Tally.count_bump, first.count_eq, started_concat, start, Ancestry.innermost?,
              isOpen]
          · intro occurrence member name
            have earlier := place_lt_of_innermost isOpen member
            have other : parent ≠ occurrence := by
              rintro rfl
              exact Nat.lt_irrefl _ earlier
            simp [started_concat, Ancestry.innermost?, isOpen, other]
          · intro name
            simp [Search.bump, Ancestry.isEmpty, topLevelCount, started_concat,
              Ancestry.innermost?, isOpen]

theorem Counts.enter {stack : List Occurrence} {occurrence : Occurrence}
    (unmet : ∀ name, started tags (some occurrence) name = 0)
    (counts : Counts tags stack search) :
    Counts tags (occurrence :: stack) (search.enter occurrence.tag.name) := by
  refine ⟨List.Forall₂.cons ⟨rfl, ?_⟩ counts.frames, counts.topLevel⟩
  intro name
  rw [unmet]
  rfl

theorem frames_close {frames : Ancestry Frame} {opened : Ancestry Occurrence}
    (counted : List.Forall₂ (Frame.Counts tags) frames.innermostFirst opened.innermostFirst)
    (name : String) :
    List.Forall₂ (Frame.Counts tags) (frames.close name).innermostFirst
      (opened.close name).innermostFirst := by
  rcases frames with ⟨frames⟩
  rcases opened with ⟨occurrences⟩
  cases counted with
  | nil => exact List.Forall₂.nil
  | cons first rest =>
      rename_i frame occurrence frames occurrences
      have sameName : Named.nameOf frame = Named.nameOf occurrence := first.name_eq
      by_cases ends : Named.nameOf occurrence = name
      · simpa [Ancestry.close, sameName, ends] using rest
      · simpa [Ancestry.close, sameName, ends] using And.intro first rest

theorem Counts.leave (closing : tag.kind = .closing)
    (counts : Counts tags (Occurrence.opened tags).innermostFirst search) :
    Counts (tags ++ [tag]) ((Occurrence.opened tags).close tag.name).innermostFirst
      (search.leave tag.name) := by
  have kept : ∀ parent name, started (tags ++ [tag]) parent name = started tags parent name := by
    intro parent name
    simp [started_concat, Tag.isStartTag, closing]
  refine ⟨?_, ?_⟩
  · apply frames_close
    exact frames_kept counts.frames fun occurrence _ => kept (some occurrence)
  · intro name
    rw [kept]
    exact counts.topLevel name

end Search

/-- A step leads to the element of an occurrence, if it is reached at all. -/
def Step.acceptsIn (tags : List Tag) (nameAttributes : List String) (step : Step)
    (occurrence : Occurrence) : Bool :=
  step.accepts nameAttributes occurrence.tag (siblingNumber tags occurrence)

namespace Search

/-- What a search remembers is true of the tags before a place of the list. -/
structure Tracks (tags : List Tag) (steps : List Step) (nameAttributes : List String)
    (before : List Tag) (search : Search) : Prop where
  counts : Counts before (Occurrence.opened before).innermostFirst search
  matched_eq : search.matched =
    (List.range (matchedLength (Step.acceptsIn tags nameAttributes) steps
      (Occurrence.opened before).toList)).reverse

variable {steps : List Step} {nameAttributes : List String} {before after : List Tag}

theorem awaitedDepth_eq (tracks : Tracks tags steps nameAttributes before search) :
    search.awaitedDepth = matchedLength (Step.acceptsIn tags nameAttributes) steps
      (Occurrence.opened before).toList := by
  rw [awaitedDepth, tracks.matched_eq]
  cases matchedLength (Step.acceptsIn tags nameAttributes) steps
      (Occurrence.opened before).toList with
  | zero => rfl
  | succ count => simp [List.range_succ]

theorem length_matched (tracks : Tracks tags steps nameAttributes before search) :
    search.matched.length = matchedLength (Step.acceptsIn tags nameAttributes) steps
      (Occurrence.opened before).toList := by
  simp [tracks.matched_eq]

theorem depth_eq (tracks : Tracks tags steps nameAttributes before search) :
    search.opened.depth = (Occurrence.opened before).toList.length := by
  rw [tracks.counts.depth_eq, Ancestry.toList, List.length_reverse]

/-- A search takes a step where it is the next one along the chain of elements. -/
theorem accepts_iff (start : tag.isStartTag = true)
    (tracks : Tracks (before ++ tag :: after) steps nameAttributes before search) :
    search.accepts steps nameAttributes tag = true ↔
      Extends (Step.acceptsIn (before ++ tag :: after) nameAttributes) steps
        (Occurrence.opened before).toList ⟨tag, before.length⟩ := by
  have number : siblingNumber (before ++ tag :: after) ⟨tag, before.length⟩ =
      search.nextIndex tag.name := by
    rw [siblingNumber_length after start, tracks.counts.nextIndex_eq]
    rfl
  rw [accepts, awaitedDepth_eq tracks, length_matched tracks, depth_eq tracks]
  constructor
  · intro accepted
    rw [Bool.and_eq_true, decide_eq_true_eq] at accepted
    rcases accepted with ⟨all, next⟩
    split at next
    · next step found =>
      rw [← all] at found
      exact ⟨all.symm, step, found, by rwa [Step.acceptsIn, number]⟩
    · exact nomatch next
  · rintro ⟨all, step, found, accepted⟩
    rw [Step.acceptsIn, number] at accepted
    simp [all, found, accepted]

theorem dropWhile_range (count depth : Nat) :
    (List.range count).reverse.dropWhile (depth ≤ ·) = (List.range (min count depth)).reverse := by
  induction count with
  | zero => simp
  | succ count ih =>
      rw [List.range_succ, List.reverse_append, List.reverse_singleton, List.singleton_append,
        List.dropWhile_cons]
      split
      · next beyond =>
        rw [decide_eq_true_eq] at beyond
        rw [ih, Nat.min_eq_right beyond, Nat.min_eq_right (Nat.le_succ_of_le beyond)]
      · next within =>
        rw [decide_eq_true_eq, Nat.not_le] at within
        rw [Nat.min_eq_left (Nat.succ_le_of_lt within), List.range_succ, List.reverse_append]
        rfl

theorem tracks_leave (closing : tag.kind = .closing)
    (tracks : Tracks tags steps nameAttributes before search) :
    Tracks tags steps nameAttributes (before ++ [tag]) (search.leave tag.name) := by
  have counts := tracks.counts.leave closing
  have after : Occurrence.opened (before ++ [tag]) = (Occurrence.opened before).close tag.name := by
    simp [Occurrence.opened_concat, Occurrence.openAfter, closing]
  refine ⟨after ▸ counts, ?_⟩
  have depth : (search.opened.close tag.name).depth =
      (Occurrence.opened (before ++ [tag])).toList.length := by
    rw [after, Ancestry.toList, List.length_reverse]
    exact counts.depth_eq
  rcases (Occurrence.opened before).exists_append_close tag.name with ⟨closed, stack⟩
  have chain : (Occurrence.opened before).toList =
      (Occurrence.opened (before ++ [tag])).toList ++ closed.reverse := by
    rw [after, Ancestry.toList, stack, List.reverse_append, Ancestry.toList]
  rw [leave, tracks.matched_eq, dropWhile_range, depth, chain, ← matchedLength_eq_min]

theorem tracks_bump (selfClosing : tag.kind = .selfClosing)
    (tracks : Tracks tags steps nameAttributes before search) :
    Tracks tags steps nameAttributes (before ++ [tag]) (search.bump tag.name) := by
  have after : Occurrence.opened (before ++ [tag]) = Occurrence.opened before := by
    simp [Occurrence.opened_concat, Occurrence.openAfter, selfClosing]
  have start : tag.isStartTag = true := by
    simp [Tag.isStartTag, selfClosing]
  refine ⟨after ▸ tracks.counts.bump start, ?_⟩
  rw [after, ← tracks.matched_eq, bump]
  split <;> rfl

theorem tracks_enter (opening : tag.kind = .opening)
    (tracks : Tracks (before ++ tag :: after) steps nameAttributes before search) :
    Tracks (before ++ tag :: after) steps nameAttributes (before ++ [tag])
      (search.visit steps nameAttributes tag) := by
  have pushed : Occurrence.opened (before ++ [tag]) =
      (Occurrence.opened before).push ⟨tag, before.length⟩ := by
    simp [Occurrence.opened_concat, Occurrence.openAfter, opening]
  have start : tag.isStartTag = true := by
    simp [Tag.isStartTag, opening]
  have unmet : ∀ name, started (before ++ [tag]) (some ⟨tag, before.length⟩) name = 0 :=
    Occurrence.started_eq_zero (by simp)
  have counts := (tracks.counts.bump start).enter unmet
  rw [visit, opening]
  refine ⟨⟨?_, counts.topLevel⟩, ?_⟩
  · rw [pushed]
    exact counts.frames
  -- The chain gets one more element, and the search keeps its depth if a step takes it.
  · rw [pushed, Ancestry.toList_push]
    by_cases accepted : search.accepts steps nameAttributes tag = true
    · have more := (accepts_iff start tracks).mp accepted
      have deepest : search.opened.depth = matchedLength
          (Step.acceptsIn (before ++ tag :: after) nameAttributes) steps
            (Occurrence.opened before).toList := by
        rw [depth_eq tracks, more.matchedLength_eq]
      simp only [accepted, if_true]
      rw [matchedLength_concat_of_extends more, List.range_succ, List.reverse_append,
        tracks.matched_eq, deepest]
      rfl
    · have noMore := fun more => accepted ((accepts_iff start tracks).mpr more)
      simp only [accepted]
      rw [matchedLength_concat_of_not_extends noMore]
      exact tracks.matched_eq

/-- Taking note of a tag keeps what a search remembers true. -/
theorem tracks_visit (tracks : Tracks (before ++ tag :: after) steps nameAttributes before search) :
    Tracks (before ++ tag :: after) steps nameAttributes (before ++ [tag])
      (search.visit steps nameAttributes tag) := by
  cases kind : tag.kind with
  | opening => exact tracks_enter kind tracks
  | closing =>
      rw [visit, kind]
      exact tracks_leave kind tracks
  | selfClosing =>
      rw [visit, kind]
      exact tracks_bump kind tracks

end Search

end MarkupPath.XPath
