import MarkupPath.Proofs.Markup.TagPlaces
import MarkupPath.Proofs.Text.LineTracker

/-!
# Tags in slices of a text

The scanner goes from one `<` to the next among the bytes of the text, wherever it was
told to begin, and cuts each tag into slices at the places that it found. It cuts next
to brackets and next to the bytes of a name, which are ASCII. So no cut is refused, and
the slices are the parts of the tags that are read by characters.
-/

namespace MarkupPath

open Markup Text

structure TagSlices (whole : List Char) where
  kind : TagKind
  name : Slice whole
  pairs : List (Slice whole × Slice whole)
  start : Position
  raw : Slice whole

namespace TagSlices

def toTag {whole : List Char} (slices : TagSlices whole) : Tag where
  kind := slices.kind
  name := slices.name.text
  attributes := NameTable.ofPairs (slices.pairs.map fun (name, value) => (name.text, value.text))
  start := slices.start
  raw := slices.raw.text

/-- All slices that a tag keeps. -/
def pieces {whole : List Char} (slices : TagSlices whole) : List (Slice whole) :=
  slices.name :: slices.raw :: slices.pairs.flatMap fun (name, value) => [name, value]

theorem exists_pair_of_mem_attributes {whole : List Char} {slices : TagSlices whole}
    {entry : String × String} (member : entry ∈ slices.toTag.attributes.entries) :
    ∃ name value, (name, value) ∈ slices.pairs ∧ entry = (name.text, value.text) := by
  rcases List.mem_map.mp (NameTable.mem_of_mem_ofPairs member) with ⟨⟨name, value⟩, paired, same⟩
  exact ⟨name, value, paired, same.symm⟩

def kindOf (closing slashed : Bool) : TagKind :=
  if closing then .closing else if slashed then .selfClosing else .opening

/-- The region without the slash that belongs to the closing bracket and without outer spaces. -/
def attributeSlice {whole : List Char} (region : Slice whole) : Slice whole :=
  (((region.before? '/').getD region).dropWhile isSpace).dropLastWhile isSpace

/-- Cuts a tag into its slices, and moves the tracker on to it. -/
def cut (text : List Char) (tracker : LineTracker) (angle : Nat) (places : TagPlaces) :
    Except BadCut (TagSlices text × LineTracker) := do
  let region ← (Slice.all text).cut places.nameStop places.last
  let moved ← tracker.seek (encode text) angle
  let name ← (Slice.all text).cut places.nameFirst places.nameStop
  let pairs ← (attributeSlice region).readPairs 0
  let raw ← (Slice.all text).cut angle (places.last + 1)
  let kind := kindOf places.closing (region.before? '/').isSome
  .ok (⟨kind, name, pairs, moved.position angle, raw⟩, moved)

def scan (text : List Char) (tracker : LineTracker) (place : Nat) :
    Except BadCut (List (TagSlices text)) :=
  match _ : nextPlace? (encode text) '<' place with
  | none => .ok []
  | some angle =>
      match _ : TagPlaces.search (encode text) angle with
      | .notATag => scan text tracker (angle + 1)
      | .endless => .ok []
      | .tag places => do
          let (slices, moved) ← cut text tracker angle places
          let rest ← scan text moved (places.last + 1)
          .ok (slices :: rest)
termination_by (encode text).length - place
decreasing_by
  · rename_i found _
    have bounds := bounds_of_nextPlace? found
    omega
  · rename_i found tag
    have bounds := bounds_of_nextPlace? found
    have tagBounds := TagPlaces.bounds_of_search tag
    omega

/-- The tags of a text that start at the offset or later, when scanning begins there. -/
def scanFrom (text : String) (start : Nat) : Except BadCut (List (TagSlices text.toList)) :=
  scan text.toList {} (min start text.utf8ByteSize)

section Cut

variable {text body after : List Char} {angle : Nat} {tracker : LineTracker}
  {places : TagPlaces} {lexeme : Lexeme}

theorem before?_region {region : Slice text} (same : region.content = lexeme.region) :
    (region.before? '/').isSome = (lexeme.region.getLast? = some '/') ∧
      ((region.before? '/').getD region).content = lexeme.attributeText := by
  rw [Lexeme.attributeText, ← same]
  by_cases isLast : region.content.getLast? = some '/'
  · rcases region.exists_before? isLast with ⟨unslashed, found, content⟩
    rw [found, if_pos isLast]
    exact ⟨by simp [isLast], content⟩
  · rw [region.before?_eq_none isLast, if_neg isLast]
    exact ⟨by simp [isLast], rfl⟩

theorem kindOf_eq {region : Slice text} (same : region.content = lexeme.region) :
    kindOf lexeme.slash.isSome (region.before? '/').isSome = lexeme.kind := by
  rw [kindOf, Lexeme.kind]
  simp only [(before?_region same).1]

theorem exists_attributes {region : Slice text} (same : region.content = lexeme.region) :
    ∃ pairs, (attributeSlice region).readPairs 0 = .ok pairs ∧
      NameTable.ofPairs (pairs.map fun (name, value) => (name.text, value.text)) =
        Attributes.ofText lexeme.attributeText := by
  have unslashed := (before?_region same).2
  have trimmed := readPairs_trim lexeme.attributeText
  rw [← unslashed] at trimmed
  rcases (attributeSlice region).exists_readPairs (isAhead_zero _) with
    ⟨pairs, read, found⟩
  refine ⟨pairs, read, ?_⟩
  rw [found, Attributes.ofText, ← unslashed, ← trimmed]
  rfl

theorem exists_cut (tracks : tracker.Tracks (encode text)) (ahead : tracker.scanned ≤ angle)
    (here : IsAhead text angle (lexeme.toList ++ after))
    (around : places.Around text lexeme after) :
    ∃ slices moved, cut text tracker angle places = .ok (slices, moved) ∧
      moved.Tracks (encode text) ∧ moved.scanned = angle ∧
      slices.toTag = lexeme.toTag (Position.behind ((encode text).take angle)) := by
  have inside : angle ≤ (encode text).length := by
    rw [here.length_encode]
    exact Nat.le_add_right _ _
  rcases (Slice.all text).exists_cut_of_isAhead around.region_ahead with
    ⟨region, cutRegion, regionContent⟩
  rcases LineTracker.exists_seek tracks ahead inside with ⟨moved, sought, scanned, movedTracks⟩
  rcases (Slice.all text).exists_cut_of_isAhead around.name_ahead with
    ⟨name, cutName, nameContent⟩
  rcases exists_attributes regionContent with ⟨pairs, read, attributes⟩
  rcases (Slice.all text).exists_cut_of_isAhead here with ⟨raw, cutRaw, rawContent⟩
  rw [← around.last_eq] at cutRegion
  rw [← around.nameStop_eq] at cutName
  rw [← around.last_succ here] at cutRaw
  refine ⟨⟨kindOf places.closing (region.before? '/').isSome, name, pairs, moved.position angle,
    raw⟩, moved, ?_, movedTracks, scanned, ?_⟩
  · simp only [cut, cutRegion, sought, cutName, read, cutRaw, bind, Except.bind]
  · rw [toTag, Lexeme.toTag, attributes, Slice.text, nameContent, Slice.text, rawContent,
      movedTracks.position_eq scanned, around.closing_eq, kindOf_eq regionContent]

end Cut

section Scan

variable {text : List Char} {tracker : LineTracker} {place angle : Nat}

theorem scan_eq (text : List Char) (tracker : LineTracker) (place : Nat) :
    scan text tracker place =
      match nextPlace? (encode text) '<' place with
      | none => .ok []
      | some angle =>
          match TagPlaces.search (encode text) angle with
          | .notATag => scan text tracker (angle + 1)
          | .endless => .ok []
          | .tag places =>
              cut text tracker angle places >>= fun (slices, moved) =>
                (scan text moved (places.last + 1)).map (slices :: ·) := by
  rw [scan]
  split
  next none => rw [none]
  next angle next =>
    rw [next]
    dsimp only
    split
    next none => rw [none]
    next endless => rw [endless]
    next places tag =>
      rw [tag]
      apply bind_congr
      rintro ⟨slices, moved⟩
      cases scan text moved (places.last + 1) <;> rfl

theorem scan_of_none (none : nextPlace? (encode text) '<' place = none) :
    scan text tracker place = .ok [] := by
  rw [scan_eq, none]

theorem scan_of_notATag (next : nextPlace? (encode text) '<' place = some angle)
    (none : TagPlaces.search (encode text) angle = .notATag) :
    scan text tracker place = scan text tracker (angle + 1) := by
  rw [scan_eq, next]
  simp only [none]

theorem scan_of_endless (next : nextPlace? (encode text) '<' place = some angle)
    (endless : TagPlaces.search (encode text) angle = .endless) :
    scan text tracker place = .ok [] := by
  rw [scan_eq, next]
  simp only [endless]

theorem scan_of_tag {places : TagPlaces} {slices : TagSlices text} {moved : LineTracker}
    (next : nextPlace? (encode text) '<' place = some angle)
    (tag : TagPlaces.search (encode text) angle = .tag places)
    (isCut : cut text tracker angle places = .ok (slices, moved)) :
    scan text tracker place = (scan text moved (places.last + 1)).map (slices :: ·) := by
  rw [scan_eq, next]
  simp only [tag, isCut]
  rfl

theorem nextPlace?_angle {body : List Char} (here : IsAhead text place ('<' :: body)) :
    nextPlace? (encode text) '<' place = some place := by
  have start : IsAhead text place ([] ++ '<' :: body) := here
  exact start.nextPlace?_of_mem (by decide) List.not_mem_nil

theorem nextPlace?_of_ne {first : Char} {rest : List Char} (other : first ≠ '<')
    (here : IsAhead text place (first :: rest)) :
    nextPlace? (encode text) '<' place =
      nextPlace? (encode text) '<' (place + first.utf8Size) := by
  have coarse : IsCoarse (· != '<') := isCoarse_ne (by decide)
  have same : skip (encode text) (· != '<') place =
      skip (encode text) (· != '<') (place + first.utf8Size) := by
    rw [here.skip_eq coarse, here.advance_cons.skip_eq coarse,
      List.takeWhile_cons_of_pos (p := (· != '<')) (bne_iff_ne.mpr other), byteLength,
      Nat.add_assoc]
  rw [nextPlace?, nextPlace?, same]

/-- The position is the one behind `passed`, and the text goes on with `ahead`. -/
structure Passed (text : List Char) (position : Position) (passed ahead : List Char) : Prop where
  split : text = passed ++ ahead
  moved : position = Position.origin.advanceOver passed

section Passed

variable {position : Position} {passed piece ahead : List Char}

theorem Passed.isAhead (here : Passed text position passed ahead) :
    IsAhead text (byteLength passed) ahead :=
  ⟨passed, here.split, rfl⟩

theorem Passed.advance (here : Passed text position passed (piece ++ ahead)) :
    Passed text (position.advanceOver piece) (passed ++ piece) ahead where
  split := here.split.trans (List.append_assoc _ _ _).symm
  moved := by rw [here.moved, Position.advanceOver_append]

theorem Passed.advance_cons {first : Char} (here : Passed text position passed (first :: ahead)) :
    Passed text (position.advance first) (passed ++ [first]) ahead := by
  have split : Passed text position passed ([first] ++ ahead) := here
  exact split.advance

theorem Passed.behind_take (here : Passed text position passed ahead) :
    Position.behind ((encode text).take (byteLength passed)) = position := by
  rw [here.split, here.moved, encode_append, ← length_encode, List.take_left,
    Position.advanceOver_origin]

theorem le_byteLength_append {place : Nat} (inside : place ≤ byteLength passed)
    (piece : List Char) : place ≤ byteLength (passed ++ piece) := by
  rw [byteLength_append]
  exact Nat.le_add_right_of_le inside

end Passed

/--
No cut is refused, and the tags are those that are read by characters. The place need not be in
front of a character, as long as the next `<` is the same.
-/
theorem exists_scan {position : Position} {passed ahead : List Char}
    (here : Passed text position passed ahead) (tracks : tracker.Tracks (encode text))
    (behind : tracker.scanned ≤ byteLength passed)
    (same : nextPlace? (encode text) '<' place =
      nextPlace? (encode text) '<' (byteLength passed)) :
    ∃ tags, scan text tracker place = .ok tags ∧
      tags.map toTag = Tag.scanAt position ahead := by
  fun_induction Tag.scanAt position ahead generalizing passed tracker place with
  | case1 position =>
      have none : nextPlace? (encode text) '<' (byteLength passed) = none :=
        here.isAhead.nextPlace?_of_not_mem (by decide) List.not_mem_nil
      exact ⟨[], scan_of_none (same.trans none), rfl⟩
  | case2 position body lexeme after reading ih =>
      have next := same.trans (nextPlace?_angle here.isAhead)
      have told := here.behind_take
      rcases TagPlaces.exists_search here.isAhead reading with ⟨places, tag, around⟩
      rw [Lexeme.append_of_read reading] at here
      rcases exists_cut tracks behind here.isAhead around with
        ⟨slices, further, isCut, furtherTracks, scanned, isTag⟩
      have resumed : places.last + 1 = byteLength (passed ++ lexeme.toList) := by
        rw [byteLength_append]
        exact around.last_succ here.isAhead
      have furtherBehind := le_byteLength_append (Nat.le_of_eq scanned) lexeme.toList
      rcases ih here.advance furtherTracks furtherBehind (congrArg _ resumed) with
        ⟨tags, scannedOn, sameTags⟩
      refine ⟨slices :: tags, ?_, ?_⟩
      · rw [scan_of_tag next tag isCut, scannedOn]
        rfl
      · rw [List.map_cons, sameTags, isTag, told]
  | case3 position body none ih =>
      have next := same.trans (nextPlace?_angle here.isAhead)
      rw [scan_of_notATag next (TagPlaces.search_of_notATag here.isAhead none)]
      apply ih here.advance_cons tracks (le_byteLength_append behind ['<'])
      rw [byteLength_append]
      rfl
  | case4 position body endless =>
      have next := same.trans (nextPlace?_angle here.isAhead)
      exact ⟨[], scan_of_endless next (TagPlaces.search_of_endless here.isAhead endless), rfl⟩
  | case5 position first rest other ih =>
      apply ih here.advance_cons tracks (le_byteLength_append behind [first])
      rw [same, nextPlace?_of_ne other here.isAhead, byteLength_append]
      rfl

end Scan

section Start

variable {text passed ahead : List Char} {start : Nat}

/-- A scan that begins in a character does not find its first `<` there. -/
theorem nextPlace?_of_start (split : text = passed ++ ahead)
    (early : ∀ front first back, passed = front ++ first :: back →
      byteLength front < start)
    (reached : start ≤ byteLength passed) :
    nextPlace? (encode text) '<' start = nextPlace? (encode text) '<' (byteLength passed) := by
  have inside : byteLength passed ≤ (encode text).length := by
    rw [split, length_encode, byteLength_append]
    exact Nat.le_add_right _ _
  have between : ∀ index, start ≤ index → index < byteLength passed →
      seen (encode text) (· != '<') index = true := by
    intro index late index_lt
    have bound := Nat.lt_of_lt_of_le index_lt inside
    rw [seen, List.getElem?_eq_getElem bound, Option.any_some, byteClass, bne_iff_ne]
    intro isAngle
    have ascii : ((encode text)[index]).toNat < 128 := by
      rw [← toNat_ofUInt8, isAngle]
      decide
    rcases exists_of_drop_encode (List.drop_eq_getElem_cons bound) ascii with
      ⟨front, after, parts, length, -⟩
    rcases List.append_eq_append_iff.mp (split.symm.trans parts) with
      ⟨more, rfl, -⟩ | ⟨more, rfl, -⟩
    · rw [byteLength_append] at length
      omega
    · cases more with
      | nil => simp [← length] at index_lt
      | cons first back =>
          have front_lt := early front first back rfl
          omega
  rw [nextPlace?, nextPlace?, skip_of_between reached inside between]

/-- The place that a scan begins at has the same next `<` as the character that it begins with. -/
theorem exists_passed_of_start (text : String) (start : Nat) :
    ∃ passed, Passed text.toList (Position.seek start .origin text.toList).1 passed
        (Position.seek start .origin text.toList).2 ∧
      nextPlace? (encode text.toList) '<' (min start text.utf8ByteSize) =
        nextPlace? (encode text.toList) '<' (byteLength passed) := by
  rcases Position.exists_passed_of_seek start .origin text.toList with
    ⟨passed, split, moved, early, reached⟩
  have length : text.utf8ByteSize = byteLength passed +
      byteLength (Position.seek start .origin text.toList).2 := by
    rw [← byteLength_append, ← split, ← utf8ByteSize_ofList, String.ofList_toList]
  have offset : ∀ front, (Position.origin.advanceOver front).offset = byteLength front :=
    fun front => (Position.offset_advanceOver _ front).trans (Nat.zero_add _)
  refine ⟨passed, ⟨split, moved⟩, ?_⟩
  by_cases inText : start ≤ text.utf8ByteSize
  · rw [Nat.min_eq_left inText]
    apply nextPlace?_of_start split
    · intro front first back parts
      rw [← offset]
      exact early front first back parts
    · cases ahead : (Position.seek start .origin text.toList).2 with
      | nil =>
          rw [ahead] at length
          exact Nat.le_trans inText (Nat.le_of_eq length)
      | cons first rest =>
          rw [← offset, ← moved]
          exact reached first rest ahead
  · have ended : (Position.seek start .origin text.toList).2 = [] := by
      cases ahead : (Position.seek start .origin text.toList).2 with
      | nil => rfl
      | cons first rest =>
          have start_le := reached first rest ahead
          rw [moved, offset] at start_le
          omega
    rw [Nat.min_eq_right (Nat.le_of_not_le inText), length, ended]
    rfl

/-- From any offset on, no cut is refused, and the tags are those that are read by characters. -/
theorem exists_scanFrom (text : String) (start : Nat) :
    ∃ tags, scanFrom text start = .ok tags ∧ tags.map toTag = Tag.scanFrom text start := by
  rcases exists_passed_of_start text start with ⟨passed, here, same⟩
  exact exists_scan here (LineTracker.tracks_initial _) (Nat.zero_le _) same

end Start

end TagSlices

end MarkupPath
