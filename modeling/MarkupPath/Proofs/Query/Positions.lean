import MarkupPath.Proofs.Markup.ScanOrder
import MarkupPath.Proofs.Text.LineTable
import MarkupPath.Proofs.Text.LineTracker
import MarkupPath.Proofs.XPath.Location
import MarkupPath.Query.Request

/-!
# Positions of tags

A scan carries the position of each tag along, and a table of lines finds the line
of any offset. The two agree on the offsets of tags, wherever the scan began, since
both give what the bytes before the tag tell. So a position that a query answers
can be taken back to its offset.
-/

namespace MarkupPath

open Text

namespace Tag

variable {text : String} {start : Nat} {tag : Tag}

theorem exists_passed_of_mem_scanFrom (member : tag ∈ scanFrom text start) :
    ∃ passed ahead, text.toList = passed ++ ahead ∧
      tag.start = Position.origin.advanceOver passed := by
  rcases Position.exists_passed_of_seek start .origin text.toList with
    ⟨sought, split, reached, -, -⟩
  rcases List.append_of_mem member with ⟨before, after, found⟩
  rcases exists_resume found with ⟨passed, ahead, further, moved, -⟩
  refine ⟨sought ++ passed, ahead, ?_, ?_⟩
  · rw [split, further, List.append_assoc]
  · rw [moved, reached, Position.advanceOver_append]

/-- The position of a tag is what the bytes before the tag tell. -/
theorem start_of_mem_scanFrom (member : tag ∈ scanFrom text start) :
    tag.start = Position.behind ((bytes text).take tag.offset) := by
  rcases exists_passed_of_mem_scanFrom member with ⟨passed, ahead, split, moved⟩
  have told : tag.start = Position.behind (encode passed) := by
    rw [moved, Position.advanceOver_origin]
  have offset : tag.offset = (encode passed).length := congrArg Position.offset told
  rw [offset, bytes_eq_encode, split, encode_append, List.take_left]
  exact told

theorem offset_le_of_mem_scanFrom (member : tag ∈ scanFrom text start) :
    tag.offset ≤ (bytes text).length := by
  have told : tag.offset = ((bytes text).take tag.offset).length :=
    congrArg Position.offset (start_of_mem_scanFrom member)
  rw [told]
  exact List.length_take_le' _ _

theorem location_offset (member : tag ∈ scanFrom text start) :
    (LineTable.ofText text).location tag.offset = tag.start := by
  rw [LineTable.location_ofText]
  exact (start_of_mem_scanFrom member).symm

theorem offsetAt_start (member : tag ∈ scanFrom text start) :
    (LineTable.ofText text).offsetAt tag.start.line tag.start.column = tag.offset := by
  have undone := LineTable.offsetAt_location (LineTable.ordered_ofText text) tag.offset
  have length : (LineTable.ofText text).length = (bytes text).length := (length_bytes text).symm
  rw [location_offset member, length] at undone
  exact undone.trans (Nat.min_eq_left (offset_le_of_mem_scanFrom member))

/-- A tracker that is moved from tag to tag gives their positions. -/
theorem positions_offsets (text : String) (start : Nat) :
    LineTracker.positions (bytes text) {} ((scanFrom text start).map offset) =
      .ok ((scanFrom text start).map Tag.start) := by
  have apart := offsets_of_scanAt (rfl : scanFrom text start = _)
  have ascending : ((scanFrom text start).map offset).Pairwise (· ≤ ·) := by
    rw [List.pairwise_map]
    refine List.Pairwise.imp_of_mem ?_ apart.2
    intro earlier later earlierMem _ ordered
    have length := (apart.1 earlier earlierMem).2
    omega
  have tracked := LineTracker.positions_eq (LineTracker.tracks_initial (bytes text)) ascending
  rw [tracked, List.map_map]
  · apply congrArg Except.ok
    apply List.map_congr_left
    intro tag member
    exact (start_of_mem_scanFrom member).symm
  · intro place member
    rcases List.mem_map.mp member with ⟨tag, isTag, rfl⟩
    exact ⟨Nat.zero_le _, offset_le_of_mem_scanFrom isTag⟩

end Tag

namespace Query

/-- What a query locates is the position of a tag of the text. -/
theorem exists_tag_of_locate {text path : String} {settings : Settings} {position : Position}
    (found : locate text path settings = .ok position) :
    ∃ tag ∈ Tag.scanFrom text 0, tag.start = position := by
  rcases exists_firstLed?_of_locate found with ⟨occurrence, first, here⟩
  have inStarts := (XPath.firstLed?_eq_some_iff.mp first).1
  have inTags := Occurrence.mem_all.mp (Occurrence.mem_starts.mp inStarts).1
  exact ⟨occurrence.tag, List.mem_of_getElem? inTags, here⟩

/-- The table of lines takes what a query locates back to its offset. -/
theorem offsetAt_of_locate {text path : String} {settings : Settings} {position : Position}
    (found : locate text path settings = .ok position) :
    (LineTable.ofText text).offsetAt position.line position.column = position.offset := by
  rcases exists_tag_of_locate found with ⟨tag, member, rfl⟩
  exact Tag.offsetAt_start member

namespace Request

theorem exists_of_locate {library : Library} {request : Request} {path : String}
    {position : Position} (found : request.locate library path = .ok position) :
    ∃ text settings, decodeText request.document = .ok text ∧
      Query.locate text path settings = .ok position := by
  unfold locate open? at found
  cases decoded : decodeText request.document with
  | error failure => simp [decoded, bind, Except.bind] at found
  | ok text =>
      cases read : readSettings library request.settings with
      | error failure => simp [decoded, read, bind, Except.bind] at found
      | ok settings =>
          refine ⟨text, settings, rfl, ?_⟩
          simpa [decoded, read, bind, Except.bind] using found

theorem offsetAt_of_request {library : Library} {request : Request} {path : String}
    {position : Position} (found : request.locate library path = .ok position) :
    offsetAt request.document position.line position.column = .ok position.offset := by
  rcases exists_of_locate found with ⟨text, settings, decoded, located⟩
  rw [offsetAt, decoded]
  exact congrArg Except.ok (offsetAt_of_locate located)

end Request

/--
Every tag of a scan is at the position that the table gives for its offset, and that a tracker gives
which moves from tag to tag. The table takes the position back to the offset, and so it does with a
position that a query locates, whatever the settings are and however they are read.
-/
theorem positions_agree :
    (∀ text start, ∀ tag ∈ Tag.scanFrom text start,
      (LineTable.ofText text).location tag.offset = tag.start ∧
        tag.start.line = ((bytes text).take tag.offset).count newline ∧
        tag.start.column = tag.offset - lastLineStart ((bytes text).take tag.offset) ∧
        (LineTable.ofText text).offsetAt tag.start.line tag.start.column = tag.offset) ∧
      (∀ text start,
        LineTracker.positions (bytes text) {} ((Tag.scanFrom text start).map Tag.offset) =
          .ok ((Tag.scanFrom text start).map Tag.start)) ∧
      (∀ (text path : String) (settings : Settings) (position : Position),
        locate text path settings = .ok position →
          (LineTable.ofText text).offsetAt position.line position.column = position.offset) ∧
      ∀ (library : Library) (request : Request) (path : String) (position : Position),
        request.locate library path = .ok position →
          offsetAt request.document position.line position.column = .ok position.offset := by
  refine ⟨?_, Tag.positions_offsets, fun _ _ _ _ => offsetAt_of_locate,
    fun _ _ _ _ => Request.offsetAt_of_request⟩
  intro text start tag member
  have told := Tag.start_of_mem_scanFrom member
  have taken := List.length_take_of_le (Tag.offset_le_of_mem_scanFrom member)
  refine ⟨Tag.location_offset member, ?_, ?_, Tag.offsetAt_start member⟩
  · exact congrArg Position.line told
  · have column := congrArg Position.column told
    rwa [Position.behind, taken] at column

/-- The scan begins in the first character, and its tag stands right behind a newline. -/
theorem positions_agree_behind_newline :
    (∃ tag ∈ Tag.scanFrom "é\n<a\n/> <b/>" 1, tag.start = ⟨3, 1, 0⟩ ∧
      (LineTable.ofText "é\n<a\n/> <b/>").location tag.offset = tag.start) ∧
      (locate "é\n<a\n/> <b/>" "b" {} = .ok ⟨9, 2, 3⟩ ∧
        (LineTable.ofText "é\n<a\n/> <b/>").offsetAt 2 3 = 9) ∧
      ∃ (request : Request) (position : Position),
        request.locate .standard "b" = .ok position ∧ position = ⟨9, 2, 3⟩ ∧
          offsetAt request.document position.line position.column = .ok position.offset := by
  refine ⟨?_, ?_, ?_⟩
  · have found : ∃ tag ∈ Tag.scanFrom "é\n<a\n/> <b/>" 1, tag.start = ⟨3, 1, 0⟩ := by
      decide +kernel
    rcases found with ⟨tag, member, start⟩
    exact ⟨tag, member, start, (positions_agree.1 "é\n<a\n/> <b/>" 1 tag member).1⟩
  · have located : locate "é\n<a\n/> <b/>" "b" {} = .ok ⟨9, 2, 3⟩ := by decide +kernel
    exact ⟨located, positions_agree.2.2.1 _ _ _ _ located⟩
  · let request : Request := { document := "é\n<a\n/> <b/>".toUTF8 }
    have located : request.locate .standard "b" = .ok ⟨9, 2, 3⟩ := by decide +kernel
    exact ⟨request, ⟨9, 2, 3⟩, located, rfl, positions_agree.2.2.2 .standard request "b" _ located⟩

end Query

end MarkupPath
