import Mathlib.Data.List.Basic
import MarkupPath.Markup.Scan
import MarkupPath.Proofs.Markup.Name
import MarkupPath.Proofs.Text.Run

/-!
# The order of the tags of a text

A scan finds its first tag behind some text that it passes over, and the rest of
its tags behind that tag. So the tags stand one behind the other without
overlapping, their names are names of the grammar, and a scan that begins at the
offset of a tag gives this tag and all those after it.
-/

namespace MarkupPath

namespace Position

theorem seek_of_le {start : Nat} {position : Position} (reached : start ≤ position.offset)
    (text : List Char) : seek start position text = (position, text) := by
  cases text with
  | nil => rfl
  | cons character rest => rw [seek, if_neg (Nat.not_lt.mpr reached)]

theorem seek_append_of_le {start : Nat} {position : Position} {passed : List Char}
    (ahead : (position.advanceOver passed).offset ≤ start) (rest : List Char) :
    seek start position (passed ++ rest) = seek start (position.advanceOver passed) rest := by
  induction passed generalizing position with
  | nil => rfl
  | cons character passed ih =>
      have width := character.utf8Size_pos
      have before : position.offset < start := by
        rw [offset_advanceOver, Text.byteLength] at ahead
        omega
      rw [List.cons_append, seek, if_pos before]
      exact ih ahead

theorem seek_append (position : Position) (passed rest : List Char) :
    seek (position.advanceOver passed).offset position (passed ++ rest) =
      (position.advanceOver passed, rest) := by
  rw [seek_append_of_le (Nat.le_refl _), seek_of_le (Nat.le_refl _)]

/-- What is passed on the way to an offset: all characters that start before it, and no other. -/
theorem exists_passed_of_seek (start : Nat) (position : Position) (text : List Char) :
    ∃ passed, text = passed ++ (seek start position text).2 ∧
      (seek start position text).1 = position.advanceOver passed ∧
      (∀ front first back, passed = front ++ first :: back →
        (position.advanceOver front).offset < start) ∧
      ∀ first rest, (seek start position text).2 = first :: rest →
        start ≤ (seek start position text).1.offset := by
  fun_induction seek start position text with
  | case1 position => exact ⟨[], rfl, rfl, by simp, by simp⟩
  | case2 position character rest early ih =>
      rcases ih with ⟨passed, split, moved, before, reached⟩
      refine ⟨character :: passed, congrArg (List.cons character) split, moved, ?_, reached⟩
      intro front first back parts
      cases front with
      | nil => exact early
      | cons initial front =>
          rw [List.cons_append, List.cons.injEq] at parts
          rw [← parts.1]
          exact before front first back parts.2
  | case3 position character rest late =>
      exact ⟨[], rfl, rfl, by simp, fun _ _ _ => Nat.le_of_not_lt late⟩

end Position

namespace Lexeme

open Markup

theorem isName_of_readName {indent text rest : List Char} {slash : Option (List Char)}
    {lexeme : Lexeme} (found : readName indent slash text = .tag lexeme rest) :
    IsName lexeme.name := by
  unfold readName at found
  split at found
  · cases found
  next first tail =>
    split at found
    next start =>
      dsimp only at found
      split at found
      next =>
        simp only [Reading.tag.injEq] at found
        rcases found with ⟨rfl, -⟩
        exact ⟨start, (longestRun_takeWhile isNameChar tail).inside⟩
      next => cases found
    next => cases found

theorem isName_of_read {text rest : List Char} {lexeme : Lexeme}
    (found : read text = .tag lexeme rest) : IsName lexeme.name := by
  unfold read at found
  dsimp only at found
  split at found
  · exact isName_of_readName found
  · exact isName_of_readName found

theorem two_le_byteLength_toList (lexeme : Lexeme) : 2 ≤ Text.byteLength lexeme.toList := by
  have angle : '<'.utf8Size = 1 ∧ '>'.utf8Size = 1 := by decide
  simp only [toList, opener, Text.byteLength_append, Text.byteLength]
  omega

end Lexeme

namespace Tag

theorem stop_toTag (lexeme : Lexeme) (position : Position) :
    (lexeme.toTag position).stop = (position.advanceOver lexeme.toList).offset := by
  simp only [stop, offset, Lexeme.toTag, Text.utf8ByteSize_ofList, Position.offset_advanceOver]

/--
The first tag of a scan: the text up to it holds no tag, and the scan goes on behind it. Here `body`
is what follows the tag's `<`, up to the end of the text.
-/
structure ScansTo (position : Position) (text : List Char) (tag : Tag) (rest : List Tag)
    (skipped body : List Char) (lexeme : Lexeme) (after : List Char) : Prop where
  split : text = skipped ++ '<' :: body
  reading : Lexeme.read body = .tag lexeme after
  tag_eq : tag = lexeme.toTag (position.advanceOver skipped)
  rest_eq : rest = scanAt (tag.start.advanceOver lexeme.toList) after

theorem exists_scansTo {position : Position} {text : List Char} {tag : Tag} {rest : List Tag}
    (found : scanAt position text = tag :: rest) :
    ∃ skipped body lexeme after,
      ScansTo position text tag rest skipped body lexeme after := by
  fun_induction scanAt position text with
  | case1 => exact nomatch found
  | case2 position body lexeme after reading =>
      simp only [List.cons.injEq] at found
      rcases found with ⟨rfl, rfl⟩
      exact ⟨[], body, lexeme, after, rfl, reading, rfl, rfl⟩
  | case3 position body none ih =>
      rcases ih found with ⟨skipped, body, lexeme, after, split, reading, tag_eq, rest_eq⟩
      exact ⟨'<' :: skipped, body, lexeme, after, by rw [split]; rfl, reading, tag_eq, rest_eq⟩
  | case4 => exact nomatch found
  | case5 position first text other ih =>
      rcases ih found with ⟨skipped, body, lexeme, after, split, reading, tag_eq, rest_eq⟩
      exact ⟨first :: skipped, body, lexeme, after, by rw [split]; rfl, reading, tag_eq, rest_eq⟩

namespace ScansTo

variable {position : Position} {text skipped body after : List Char} {tag : Tag} {rest : List Tag}
  {lexeme : Lexeme}

theorem start_eq (scans : ScansTo position text tag rest skipped body lexeme after) :
    tag.start = position.advanceOver skipped := by
  rw [scans.tag_eq]
  rfl

theorem stop_eq (scans : ScansTo position text tag rest skipped body lexeme after) :
    tag.stop = (tag.start.advanceOver lexeme.toList).offset := by
  rw [scans.start_eq, scans.tag_eq, stop_toTag]

theorem position_le (scans : ScansTo position text tag rest skipped body lexeme after) :
    position.offset ≤ tag.offset := by
  rw [offset, scans.start_eq, Position.offset_advanceOver]
  exact Nat.le_add_right _ _

theorem offset_add_two_le (scans : ScansTo position text tag rest skipped body lexeme after) :
    tag.offset + 2 ≤ tag.stop := by
  rw [scans.stop_eq, Position.offset_advanceOver]
  exact Nat.add_le_add_left lexeme.two_le_byteLength_toList tag.start.offset

theorem scanAt_start (scans : ScansTo position text tag rest skipped body lexeme after) :
    scanAt tag.start ('<' :: body) = tag :: rest := by
  rw [scanAt_of_tag scans.reading, scans.rest_eq, scans.start_eq, ← scans.tag_eq]

end ScansTo

/-- The tags of a text stand one behind the other, each of them at least two bytes long. -/
theorem offsets_of_scanAt {position : Position} {text : List Char} {tags : List Tag}
    (found : scanAt position text = tags) :
    (∀ tag ∈ tags, position.offset ≤ tag.offset ∧ tag.offset + 2 ≤ tag.stop) ∧
      tags.Pairwise fun earlier later => earlier.stop ≤ later.offset := by
  induction tags generalizing position text with
  | nil => exact ⟨by simp, List.Pairwise.nil⟩
  | cons tag rest ih =>
      rcases exists_scansTo found with ⟨skipped, body, lexeme, after, scans⟩
      rcases ih scans.rest_eq.symm with ⟨behind, ordered⟩
      have first_le := scans.position_le
      have length := scans.offset_add_two_le
      have rest_ge : ∀ later ∈ rest, tag.stop ≤ later.offset := by
        intro later member
        rw [scans.stop_eq]
        exact (behind later member).1
      refine ⟨?_, List.pairwise_cons.mpr ⟨rest_ge, ordered⟩⟩
      intro later member
      rcases List.mem_cons.mp member with rfl | member
      · exact ⟨first_le, length⟩
      · have later_ge := rest_ge later member
        exact ⟨by omega, (behind later member).2⟩

theorem stop_le_of_mem_scanAt {position : Position} {text : List Char} {tags : List Tag}
    (found : scanAt position text = tags) :
    ∀ tag ∈ tags, tag.stop ≤ (position.advanceOver text).offset := by
  induction tags generalizing position text with
  | nil => simp
  | cons tag rest ih =>
      rcases exists_scansTo found with ⟨skipped, body, lexeme, after, scans⟩
      have whole : position.advanceOver text =
          (tag.start.advanceOver lexeme.toList).advanceOver after := by
        rw [scans.split, Lexeme.append_of_read scans.reading, Position.advanceOver_append,
          Position.advanceOver_append, scans.start_eq]
      intro later member
      rw [whole]
      rcases List.mem_cons.mp member with rfl | member
      · rw [scans.stop_eq, Position.offset_advanceOver _ after]
        exact Nat.le_add_right _ _
      · exact ih scans.rest_eq.symm later member

theorem isName_of_mem_scanAt {position : Position} {text : List Char} {tags : List Tag}
    (found : scanAt position text = tags) :
    ∀ tag ∈ tags, Markup.IsName tag.name.toList := by
  induction tags generalizing position text with
  | nil => simp
  | cons tag rest ih =>
      rcases exists_scansTo found with ⟨skipped, body, lexeme, after, scans⟩
      intro later member
      rcases List.mem_cons.mp member with rfl | member
      · rw [scans.tag_eq]
        simpa [Lexeme.toTag] using Lexeme.isName_of_read scans.reading
      · exact ih scans.rest_eq.symm later member

/-- A scan can be taken up again at any of its tags. -/
theorem exists_resume {position : Position} {text : List Char} {before after : List Tag} {tag : Tag}
    (found : scanAt position text = before ++ tag :: after) :
    ∃ passed ahead, text = passed ++ ahead ∧ tag.start = position.advanceOver passed ∧
      scanAt tag.start ahead = tag :: after := by
  induction before generalizing position text with
  | nil =>
      rcases exists_scansTo found with ⟨skipped, body, lexeme, rest, scans⟩
      exact ⟨skipped, '<' :: body, scans.split, scans.start_eq, scans.scanAt_start⟩
  | cons first before ih =>
      rcases exists_scansTo found with ⟨skipped, body, lexeme, rest, scans⟩
      rcases ih scans.rest_eq.symm with ⟨passed, ahead, split, start, resumed⟩
      refine ⟨skipped ++ lexeme.toList ++ passed, ahead, ?_, ?_, resumed⟩
      · rw [scans.split, Lexeme.append_of_read scans.reading, split]
        simp
      · rw [start, scans.start_eq]
        simp

theorem scan_eq_scanAt (text : String) : scan text = scanAt .origin text.toList := by
  have here := Position.seek_append .origin [] text.toList
  simp only [Position.advanceOver_nil, List.nil_append] at here
  have start : Position.origin.offset = 0 := rfl
  rw [start] at here
  rw [scan, scanFrom, here]

theorem scanFrom_offset {text : String} {before after : List Tag} {tag : Tag}
    (found : scan text = before ++ tag :: after) : scanFrom text tag.offset = tag :: after := by
  rw [scan_eq_scanAt] at found
  rcases exists_resume found with ⟨passed, ahead, split, start, resumed⟩
  have place := Position.seek_append .origin passed ahead
  rw [← split, ← start] at place
  rw [scanFrom, offset, place]
  exact resumed

theorem length_scanAt_le {position : Position} {text : List Char} {tags : List Tag}
    (found : scanAt position text = tags) : tags.length ≤ text.length := by
  induction tags generalizing position text with
  | nil => exact Nat.zero_le _
  | cons tag rest ih =>
      rcases exists_scansTo found with ⟨skipped, body, lexeme, after, scans⟩
      have rest_le := ih scans.rest_eq.symm
      have after_lt := Lexeme.length_lt_of_read scans.reading
      rw [scans.split, List.length_append, List.length_cons, List.length_cons]
      omega

theorem length_scan_le (text : String) : (scan text).length ≤ text.utf8ByteSize := by
  have tags_le := length_scanAt_le (scan_eq_scanAt text).symm
  have bytes := Text.utf8ByteSize_ofList text.toList
  rw [String.ofList_toList] at bytes
  rw [bytes]
  exact Nat.le_trans tags_le (Text.length_le_byteLength text.toList)

theorem scan_pairwise (text : String) :
    (scan text).Pairwise fun earlier later => earlier.stop ≤ later.offset :=
  (offsets_of_scanAt (scan_eq_scanAt text).symm).2

theorem offset_add_two_le_stop {text : String} {tag : Tag} (member : tag ∈ scan text) :
    tag.offset + 2 ≤ tag.stop :=
  ((offsets_of_scanAt (scan_eq_scanAt text).symm).1 tag member).2

theorem isName_of_mem_scan {text : String} {tag : Tag} (member : tag ∈ scan text) :
    Markup.IsName tag.name.toList :=
  isName_of_mem_scanAt (scan_eq_scanAt text).symm tag member

theorem scan_offset_lt (text : String) :
    (scan text).Pairwise fun earlier later => earlier.offset < later.offset := by
  refine List.Pairwise.imp_of_mem ?_ (scan_pairwise text)
  intro earlier later earlierMem _ ordered
  have length := offset_add_two_le_stop earlierMem
  omega

end Tag

end MarkupPath
