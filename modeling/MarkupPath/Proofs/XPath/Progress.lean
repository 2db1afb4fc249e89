import MarkupPath.Markup.Scan
import MarkupPath.Proofs.Nesting.Outline
import MarkupPath.Proofs.XPath.Search
import MarkupPath.XPath.Reader

/-!
# Progress of a search

A search takes its next step by the number of the steps that have been matched, and
looks at the depths that it keeps only when a closing tag has ended an element.
`readAll?` is the search in these words: a step that is not in the list is refused, not
passed over. As long as nothing is found, what such a search remembers is told by the
tags and the steps alone, and from this it follows that no step is refused.
-/

namespace MarkupPath.XPath

/-- What has become of a search after some tags. -/
inductive Progress
  /-- The last step leads to the element that starts here. -/
  | found (start : Position)
  | searching (search : Search)
deriving DecidableEq, Repr

namespace Progress

def found? : Progress → Option Position
  | found start => some start
  | searching _ => none

end Progress

namespace Search

/-- The next step takes the element of this start tag. It is refused if there is no next step. -/
def takes? (search : Search) (steps : List Step) (nameAttributes : List String) (tag : Tag) :
    Option Bool :=
  if search.opened.depth = search.awaitedDepth then
    steps[search.matched.length]?.map fun step =>
      step.accepts nameAttributes tag (search.nextIndex tag.name)
  else some false

/-- Takes note of a start tag. Its depth is kept if its element is taken and is open from here on. -/
def note (search : Search) (tag : Tag) (taken : Bool) : Search :=
  match tag.kind with
  | .opening =>
      { (search.bump tag.name).enter tag.name with
        matched := if taken then search.opened.depth :: search.matched else search.matched }
  | _ => search.bump tag.name

/-- Reads one more tag. No depth is given up at a closing tag that ends nothing. -/
def read? (search : Search) (steps : List Step) (nameAttributes : List String) (tag : Tag) :
    Option Progress :=
  match tag.kind with
  | .closing =>
      let ends := (search.opened.closed? tag.name).isSome
      some (.searching (if ends then search.leave tag.name else search))
  | _ =>
      (search.takes? steps nameAttributes tag).map fun taken =>
        if taken && search.matched.length + 1 = steps.length then .found tag.start
        else .searching (search.note tag taken)

/-- Reads tags until the path is complete or a step is refused. -/
def readAll? (search : Search) (steps : List Step) (nameAttributes : List String) :
    List Tag → Option Progress
  | [] => some (.searching search)
  | tag :: rest =>
      match search.read? steps nameAttributes tag with
      | some (.searching next) => readAll? next steps nameAttributes rest
      | ended => ended

/-- What a search remembers when it has taken note of all of the tags. -/
def visitAll (search : Search) (steps : List Step) (nameAttributes : List String)
    (tags : List Tag) : Search :=
  tags.foldl (fun noted tag => noted.visit steps nameAttributes tag) search

variable {tag : Tag} {search : Search} {tags before after : List Tag} {steps : List Step}
  {nameAttributes : List String}

theorem takes?_eq (short : search.matched.length < steps.length) :
    search.takes? steps nameAttributes tag = some (search.accepts steps nameAttributes tag) := by
  rw [takes?, accepts, List.getElem?_eq_getElem short]
  by_cases awaited : search.opened.depth = search.awaitedDepth
  · simp [awaited]
  · simp [awaited]

theorem length_matched_le (tracks : Tracks tags steps nameAttributes before search) :
    search.matched.length ≤ search.opened.depth := by
  rw [length_matched tracks, depth_eq tracks]
  exact matchedLength_le _ _ _

/-- Only depths of open elements are kept, so a closing tag that ends nothing leaves them all. -/
theorem leave_of_not_closed (tracks : Tracks tags steps nameAttributes before search)
    {name : String} (stays : ¬(search.opened.closed? name).isSome = true) :
    search.leave name = search := by
  have within := length_matched_le tracks
  rw [length_matched tracks] at within
  have kept : search.matched.dropWhile (search.opened.depth ≤ ·) = search.matched := by
    rw [tracks.matched_eq, dropWhile_range, Nat.min_eq_left within]
  simp only [leave, Ancestry.close_of_not_closed stays, kept]

theorem visit_of_start (start : tag.isStartTag = true) :
    search.visit steps nameAttributes tag =
      search.note tag (search.accepts steps nameAttributes tag) := by
  cases kind : tag.kind with
  | opening => simp [visit, note, kind]
  | closing => simp [Tag.isStartTag, kind] at start
  | selfClosing => simp [visit, note, kind]

theorem read?_of_start (start : tag.isStartTag = true)
    (short : search.matched.length < steps.length) :
    search.read? steps nameAttributes tag =
      some (if search.completes steps nameAttributes tag then .found tag.start
        else .searching (search.visit steps nameAttributes tag)) := by
  rw [read?, takes?_eq short, visit_of_start start, completes, start, Bool.true_and]
  split
  · next closing => simp [Tag.isStartTag, closing] at start
  · rfl

/-- A tag is read without a refusal: it completes the path, or it is taken note of. -/
theorem read?_eq (tracks : Tracks tags steps nameAttributes before search)
    (short : search.matched.length < steps.length) :
    search.read? steps nameAttributes tag =
      some (if search.completes steps nameAttributes tag then .found tag.start
        else .searching (search.visit steps nameAttributes tag)) := by
  cases kind : tag.kind with
  | closing =>
      have incomplete : search.completes steps nameAttributes tag = false := by
        simp [completes, Tag.isStartTag, kind]
      rw [read?, kind, incomplete, visit, kind]
      by_cases ends : (search.opened.closed? tag.name).isSome = true
      · simp [ends]
      · simp [ends, leave_of_not_closed tracks ends]
  | opening => exact read?_of_start (by simp [Tag.isStartTag, kind]) short
  | selfClosing => exact read?_of_start (by simp [Tag.isStartTag, kind]) short

theorem readAll?_append {next : Search}
    (goesOn : search.readAll? steps nameAttributes before = some (.searching next))
    (after : List Tag) :
    search.readAll? steps nameAttributes (before ++ after) =
      next.readAll? steps nameAttributes after := by
  induction before generalizing search with
  | nil =>
      rw [readAll?, Option.some.injEq, Progress.searching.injEq] at goesOn
      rw [goesOn, List.nil_append]
  | cons tag before ih =>
      rw [List.cons_append, readAll?]
      rw [readAll?] at goesOn
      split at goesOn
      · exact ih goesOn
      · next other => exact absurd goesOn (other next)

/-- As long as the path is not complete, there is a next step. -/
theorem length_matched_visit_lt (short : search.matched.length < steps.length)
    (incomplete : ¬search.completes steps nameAttributes tag = true) :
    (search.visit steps nameAttributes tag).matched.length < steps.length := by
  cases kind : tag.kind with
  | opening =>
      rw [visit, kind]
      by_cases accepted : search.accepts steps nameAttributes tag = true
      · have notLast : search.matched.length + 1 ≠ steps.length := by
          simpa [completes, Tag.isStartTag, kind, accepted] using incomplete
        simp only [accepted, if_true, List.length_cons]
        omega
      · simpa [accepted] using short
  | closing =>
      rw [visit, kind]
      have fewer := (List.dropWhile_sublist
        ((search.opened.close tag.name).depth ≤ ·) (l := search.matched)).length_le
      exact Nat.lt_of_le_of_lt fewer short
  | selfClosing =>
      rw [visit, kind]
      simp only [bump]
      split
      · exact short
      · exact short

theorem tracks_visitAll (before : List Tag)
    (tracks : Tracks (before ++ after) steps nameAttributes before search) :
    Tracks (before ++ after) steps nameAttributes (before ++ after)
      (search.visitAll steps nameAttributes after) := by
  induction after generalizing before search with
  | nil => rwa [List.append_nil] at tracks ⊢
  | cons tag after ih =>
      have further := tracks_visit tracks
      rw [List.append_cons] at further ⊢
      exact ih (before ++ [tag]) further

theorem run_cons_eq_none (missed : search.run steps nameAttributes (tag :: tags) = none) :
    ¬search.completes steps nameAttributes tag = true ∧
      (search.visit steps nameAttributes tag).run steps nameAttributes tags = none := by
  rw [run] at missed
  split at missed
  · simp at missed
  · next incomplete => exact ⟨incomplete, missed⟩

theorem length_matched_visitAll_lt (short : search.matched.length < steps.length)
    (missed : search.run steps nameAttributes tags = none) :
    (search.visitAll steps nameAttributes tags).matched.length < steps.length := by
  induction tags generalizing search with
  | nil => exact short
  | cons tag tags ih =>
      rcases run_cons_eq_none missed with ⟨incomplete, missedBehind⟩
      exact ih (length_matched_visit_lt short incomplete) missedBehind

theorem run_append_of_none (missed : search.run steps nameAttributes before = none)
    (after : List Tag) :
    search.run steps nameAttributes (before ++ after) =
      (search.visitAll steps nameAttributes before).run steps nameAttributes after := by
  induction before generalizing search with
  | nil => rfl
  | cons tag before ih =>
      rcases run_cons_eq_none missed with ⟨incomplete, missedBehind⟩
      rw [List.cons_append, run, if_neg incomplete, ih missedBehind]
      rfl

/-- No tag of a list is refused, and what is found is what `run` finds. -/
theorem readAll?_eq (before : List Tag)
    (tracks : Tracks (before ++ after) steps nameAttributes before search)
    (short : search.matched.length < steps.length) :
    search.readAll? steps nameAttributes after =
      match search.run steps nameAttributes after with
      | some start => some (.found start)
      | none => some (.searching (search.visitAll steps nameAttributes after)) := by
  induction after generalizing before search with
  | nil => rfl
  | cons tag after ih =>
      rw [readAll?, read?_eq tracks short, run]
      by_cases complete : search.completes steps nameAttributes tag = true
      · simp [complete]
      · have further := tracks_visit tracks
        rw [List.append_cons] at further
        have rest := ih (before ++ [tag]) further (length_matched_visit_lt short complete)
        simp only [complete]
        exact rest

/--
What a search remembers is what the tags and the steps say. The depths are those of the open
elements, from the outermost on, that are accepted by the steps at their places, as far as this goes
without a gap. There is a step behind those that are matched.
-/
structure Coherent (tags : List Tag) (steps : List Step) (nameAttributes : List String)
    (search : Search) : Prop where
  counts : Counts tags (Occurrence.opened tags).innermostFirst search
  depths : search.matched.reverse = List.range search.matched.length
  within : search.matched.length ≤ search.opened.depth
  short : search.matched.length < steps.length
  longest : IsGreatest
    {count | AcceptsFirst (Step.acceptsIn tags nameAttributes) steps
      (Occurrence.opened tags).toList count}
    search.matched.length

theorem coherent_of_tracks (tracks : Tracks tags steps nameAttributes tags search)
    (short : search.matched.length < steps.length) :
    Coherent tags steps nameAttributes search where
  counts := tracks.counts
  depths := by
    rw [length_matched tracks, tracks.matched_eq, List.reverse_reverse]
  within := length_matched_le tracks
  short := short
  longest := by
    rw [length_matched tracks]
    exact isGreatest_matchedLength _ _ _

/--
A search with a step to take is refused no step, whatever it reads, and finds what `find` finds.
Behind any tags in which nothing is found it goes on from what they make it remember, and this is
coherent.
-/
theorem coherent_until_found (before after : List Tag) (steps : List Step)
    (nameAttributes : List String) (someStep : steps ≠ []) :
    ((readAll? {} steps nameAttributes (before ++ after)).map Progress.found? =
        some (find (before ++ after) steps nameAttributes)) ∧
      (find before steps nameAttributes = none →
        readAll? {} steps nameAttributes before =
            some (.searching (visitAll {} steps nameAttributes before)) ∧
          readAll? {} steps nameAttributes (before ++ after) =
            (visitAll {} steps nameAttributes before).readAll? steps nameAttributes after ∧
          find (before ++ after) steps nameAttributes =
            (visitAll {} steps nameAttributes before).run steps nameAttributes after ∧
          Coherent before steps nameAttributes (visitAll {} steps nameAttributes before)) := by
  have short : ({} : Search).matched.length < steps.length := List.length_pos_iff.mpr someStep
  have reads : ∀ tags, readAll? {} steps nameAttributes tags =
      match find tags steps nameAttributes with
      | some start => some (.found start)
      | none => some (.searching (visitAll {} steps nameAttributes tags)) := by
    intro tags
    exact readAll?_eq [] (tracks_nil tags steps nameAttributes) short
  constructor
  · rw [reads]
    cases find (before ++ after) steps nameAttributes with
    | some start => rfl
    | none => rfl
  · intro nothing
    have goesOn := reads before
    rw [nothing] at goesOn
    have tracks := tracks_visitAll [] (tracks_nil before steps nameAttributes)
    refine ⟨goesOn, readAll?_append goesOn after, run_append_of_none nothing after, ?_⟩
    exact coherent_of_tracks tracks (length_matched_visitAll_lt short nothing)

/-- The `</a>` ends nothing, the `</d>` ends an element inside of the last one that was matched. -/
theorem coherent_until_found_behind_closings :
    Step.readPath "/a/b[2]/c[2]" ≠ [] ∧
      find (Tag.scan "<a><b/><b></a><c/><d></d>") (Step.readPath "/a/b[2]/c[2]") [] = none ∧
      readAll? {} (Step.readPath "/a/b[2]/c[2]") [] (Tag.scan "<a><b/><b></a><c/><d></d>") =
        some (.searching
          { opened := ⟨[⟨"b", .ofPairs [("c", 1), ("d", 1)]⟩, ⟨"a", .ofPairs [("b", 2)]⟩]⟩
            topLevel := .ofPairs [("a", 1)]
            matched := [1, 0] }) ∧
      Coherent (Tag.scan "<a><b/><b></a><c/><d></d>") (Step.readPath "/a/b[2]/c[2]") []
        { opened := ⟨[⟨"b", .ofPairs [("c", 1), ("d", 1)]⟩, ⟨"a", .ofPairs [("b", 2)]⟩]⟩
          topLevel := .ofPairs [("a", 1)]
          matched := [1, 0] } := by
  have someStep : Step.readPath "/a/b[2]/c[2]" ≠ [] := by decide +kernel
  have nothing : find (Tag.scan "<a><b/><b></a><c/><d></d>") (Step.readPath "/a/b[2]/c[2]") [] =
      none := by decide +kernel
  have remembered : visitAll {} (Step.readPath "/a/b[2]/c[2]") []
      (Tag.scan "<a><b/><b></a><c/><d></d>") =
        { opened := ⟨[⟨"b", .ofPairs [("c", 1), ("d", 1)]⟩, ⟨"a", .ofPairs [("b", 2)]⟩]⟩
          topLevel := .ofPairs [("a", 1)]
          matched := [1, 0] } := by
    decide +kernel
  rcases (coherent_until_found _ [] _ [] someStep).2 nothing with ⟨goesOn, -, -, coherent⟩
  rw [remembered] at goesOn coherent
  exact ⟨someStep, nothing, goesOn, coherent⟩

end Search

end MarkupPath.XPath
