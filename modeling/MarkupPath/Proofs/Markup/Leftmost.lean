import Mathlib.Data.List.Forall2
import MarkupPath.Proofs.Markup.TagBytes

/-!
# Leftmost tags

`Leftmost` is the order in which tags are taken from the bytes of a text: the
first from the beginning, and each further one from the end of the one before. A
scan gives the leftmost tags. It reads characters, tries every `<` once and stops
at a name without an end, and by this it misses none.
-/

namespace MarkupPath

open Markup Text

/--
Tags with their places, each the first one that begins at the end of the one before or later. The
first of them is the first one from `place` on, and after the last of them no tag begins.
-/
inductive Leftmost (bytes : List UInt8) : Nat → List (Nat × TagBytes) → Prop
  | done {place : Nat} (none : ∀ start, place ≤ start → ¬StartsTag bytes start) :
      Leftmost bytes place []
  | next {place start : Nat} {tag : TagBytes} {rest : List (Nat × TagBytes)}
      (place_le : place ≤ start) (here : tag.IsAt bytes start)
      (least : ∀ other, place ≤ other → other < start → ¬StartsTag bytes other)
      (later : Leftmost bytes (start + tag.toList.length) rest) :
      Leftmost bytes place ((start, tag) :: rest)

theorem exists_related {First Second : Type} {related : First → Second → Prop}
    {ones : List First} {others : List Second} (all : List.Forall₂ related ones others)
    {one : First} (member : one ∈ ones) : ∃ other ∈ others, related one other := by
  induction all with
  | nil => exact nomatch member
  | cons first _ ih =>
      rcases List.mem_cons.mp member with rfl | later
      · exact ⟨_, List.mem_cons_self, first⟩
      · rcases ih later with ⟨other, otherMem, relatedOther⟩
        exact ⟨other, List.mem_cons_of_mem _ otherMem, relatedOther⟩

namespace Leftmost

theorem unique {text : List Char} {place : Nat} {found other : List (Nat × TagBytes)}
    (leftmost : Leftmost (Text.encode text) place found)
    (otherLeftmost : Leftmost (Text.encode text) place other) : found = other := by
  induction leftmost generalizing other with
  | done none =>
      cases otherLeftmost with
      | done _ => rfl
      | next place_le here _ _ => exact absurd ⟨_, here⟩ (none _ place_le)
  | @next place start tag rest place_le here least later ih =>
      cases otherLeftmost with
      | done none => exact absurd ⟨_, here⟩ (none _ place_le)
      | @next _ otherStart otherTag otherRest otherPlace_le there otherLeast otherLater =>
          have notBefore : ¬otherStart < start := fun before =>
            least otherStart otherPlace_le before ⟨_, there⟩
          have notBehind : ¬start < otherStart := fun before =>
            otherLeast start place_le before ⟨_, here⟩
          have sameStart : start = otherStart := by omega
          subst sameStart
          have sameTag := here.unique there
          subst sameTag
          rw [ih otherLater]

/-- Where no tag begins, nothing is passed over. -/
theorem of_no_tag {bytes : List UInt8} {place further : Nat} {found : List (Nat × TagBytes)}
    (leftmost : Leftmost bytes further found) (place_le : place ≤ further)
    (none : ∀ start, place ≤ start → start < further → ¬StartsTag bytes start) :
    Leftmost bytes place found := by
  cases leftmost with
  | done noMore =>
      apply done
      intro start start_ge
      by_cases before : start < further
      · exact none start start_ge before
      · exact noMore start (by omega)
  | @next _ start tag rest further_le here least later =>
      refine next (by omega) here ?_ later
      intro other other_ge other_lt
      by_cases before : other < further
      · exact none other other_ge before
      · exact least other (by omega) other_lt

theorem of_no_tag_behind {passed text : List Char} {place : Nat} (here : place = byteLength passed)
    (none : ∀ count, ¬StartsTag (Text.encode text) count) :
    Leftmost (Text.encode (passed ++ text)) place [] := by
  apply done
  intro start start_ge
  rcases Nat.exists_eq_add_of_le (here ▸ start_ge) with ⟨count, rfl⟩
  rw [startsTag_append_iff]
  exact none count

theorem isAt_of_mem {bytes : List UInt8} {place : Nat} {found : List (Nat × TagBytes)}
    (leftmost : Leftmost bytes place found) {one : Nat × TagBytes} (member : one ∈ found) :
    one.2.IsAt bytes one.1 := by
  induction leftmost with
  | done _ => exact nomatch member
  | next _ here _ _ ih =>
      rcases List.mem_cons.mp member with rfl | later
      · exact here
      · exact ih later

/-- What begins like a tag is a tag that is taken, or stands inside of one. -/
theorem exists_around {bytes : List UInt8} {place start : Nat} {found : List (Nat × TagBytes)}
    (leftmost : Leftmost bytes place found) (place_le : place ≤ start)
    (starts : StartsTag bytes start) :
    ∃ one ∈ found, one.1 ≤ start ∧ start < one.1 + one.2.toList.length := by
  induction leftmost with
  | done none => exact absurd starts (none start place_le)
  | @next place first tag rest _ here least later ih =>
      by_cases before : start < first
      · exact absurd starts (least start place_le before)
      · by_cases inside : start < first + tag.toList.length
        · exact ⟨_, List.mem_cons_self, Nat.le_of_not_lt before, inside⟩
        · rcases ih (Nat.le_of_not_lt inside) with ⟨one, member, around⟩
          exact ⟨one, List.mem_cons_of_mem _ member, around⟩

end Leftmost

namespace Tag

/-- A tag is the one with these pieces, at this place. -/
structure Shows (tag : Tag) (found : Nat × TagBytes) : Prop where
  offset_eq : tag.offset = found.1
  kind_eq : tag.kind = found.2.kind
  name_eq : bytes tag.name = found.2.name
  raw_eq : bytes tag.raw = found.2.toList

theorem shows_toTag (lexeme : Lexeme) (position : Position) :
    Shows (lexeme.toTag position) (position.offset, lexeme.encode) := by
  refine ⟨rfl, lexeme.kind_encode.symm, ?_, ?_⟩
  · exact bytes_ofList lexeme.name
  · exact (bytes_ofList lexeme.toList).trans lexeme.encode_toList.symm

/-- A scan passes over a character where no tag begins. -/
theorem leftmost_of_advance {position : Position} {first : Char} {text passed : List Char}
    {found : List (Nat × TagBytes)} (here : position.offset = byteLength passed)
    (noTag : first = '<' → ∀ lexeme after, Lexeme.read text ≠ .tag lexeme after)
    (leftmost : Leftmost (Text.encode (passed ++ [first] ++ text)) (position.advance first).offset
      found) :
    Leftmost (Text.encode (passed ++ first :: text)) position.offset found := by
  rw [List.append_assoc, List.singleton_append] at leftmost
  rw [Position.offset_advance] at leftmost
  apply leftmost.of_no_tag (Nat.le_add_right _ _)
  intro start start_ge start_lt
  obtain ⟨count, rfl⟩ := Nat.exists_eq_add_of_le (here ▸ start_ge)
  rw [startsTag_append_iff]
  exact not_startsTag_cons (by omega) noTag

/-- A scan from anywhere between two characters gives the leftmost tags from there on. -/
theorem exists_leftmost_scanAt {position : Position} {text passed : List Char}
    (here : position.offset = byteLength passed) :
    ∃ found, Leftmost (Text.encode (passed ++ text)) position.offset found ∧
      List.Forall₂ Shows (scanAt position text) found := by
  fun_induction scanAt position text generalizing passed with
  | case1 position =>
      exact ⟨[], Leftmost.of_no_tag_behind here not_startsTag_nil, List.Forall₂.nil⟩
  | case2 position body lexeme after reading ih =>
      have split := Lexeme.append_of_read reading
      have there : (position.advanceOver lexeme.toList).offset =
          byteLength (passed ++ lexeme.toList) := by
        rw [Position.offset_advanceOver, here, byteLength_append]
      rcases ih there with ⟨found, leftmost, shown⟩
      rw [List.append_assoc, ← split] at leftmost
      refine ⟨(position.offset, lexeme.encode) :: found, ?_,
        List.Forall₂.cons (shows_toTag lexeme position) shown⟩
      refine Leftmost.next (Nat.le_refl _) ?_ ?_ ?_
      · exact TagBytes.isAt_encode_iff.mpr
          ⟨passed, body, lexeme, after, rfl, here.symm, reading, rfl⟩
      · intro other other_ge other_lt
        omega
      · rw [Lexeme.encode_toList, length_encode, ← Position.offset_advanceOver]
        exact leftmost
  | case3 position body notATag ih =>
      have there : (position.advance '<').offset = byteLength (passed ++ ['<']) := by
        simp [here, byteLength]
      rcases ih there with ⟨found, leftmost, shown⟩
      refine ⟨found, leftmost_of_advance here ?_ leftmost, shown⟩
      intro _ lexeme after read
      cases notATag.symm.trans read
  | case4 position body endless =>
      exact ⟨[], Leftmost.of_no_tag_behind here (not_startsTag_of_endless endless),
        List.Forall₂.nil⟩
  | case5 position first text other ih =>
      have there : (position.advance first).offset = byteLength (passed ++ [first]) := by
        simp [here, byteLength]
      rcases ih there with ⟨found, leftmost, shown⟩
      exact ⟨found, leftmost_of_advance here (fun bracket => absurd bracket other) leftmost, shown⟩

namespace Shows

variable {text : String} {tag : Tag} {found : Nat × TagBytes}

theorem stop_eq (shows : Shows tag found) : tag.stop = found.1 + found.2.toList.length := by
  rw [stop, shows.offset_eq, ← shows.raw_eq, length_bytes]

end Shows

/--
The tags of a text are the leftmost ones of its bytes: there is one way to take them, and a scan
gives them one by one. So they stand one behind the other, each from its `<` to the first `>` after
its name, and what looks like the beginning of another tag stands inside of one of them.
-/
theorem leftmost_scan (text : String) :
    ∃ found, (∀ other, Leftmost (bytes text) 0 other ↔ other = found) ∧
      List.Forall₂ Shows (scan text) found ∧
      ((scan text).Pairwise fun earlier later =>
        earlier.offset < later.offset ∧ earlier.stop ≤ later.offset) ∧
      (∀ tag ∈ scan text,
        bytes tag.raw = ((bytes text).drop tag.offset).take (tag.stop - tag.offset) ∧
        ∃ front, bytes tag.raw = front ++ ['>'.toUInt8] ∧ '>'.toUInt8 ∉ front) ∧
      ∀ start, StartsTag (bytes text) start →
        ∃ tag ∈ scan text, tag.offset ≤ start ∧ start < tag.stop := by
  have here : Position.origin.offset = byteLength [] := rfl
  rcases exists_leftmost_scanAt here with ⟨found, leftmost, shown⟩
  rw [List.nil_append, ← bytes_eq_encode] at leftmost
  rw [← scan_eq_scanAt] at shown
  refine ⟨found, ?_, shown, ?_, ?_, ?_⟩
  · intro other
    constructor
    · intro otherLeftmost
      rw [bytes_eq_encode] at leftmost otherLeftmost
      exact otherLeftmost.unique leftmost
    · rintro rfl
      exact leftmost
  · exact (scan_offset_lt text).and (scan_pairwise text)
  · intro tag member
    rcases exists_related shown member with ⟨one, oneMem, shows⟩
    rcases leftmost.isAt_of_mem oneMem with ⟨wellFormed, isPrefix⟩
    refine ⟨?_, _, ?_, wellFormed.end_not_mem⟩
    · rw [shows.stop_eq, shows.offset_eq, Nat.add_sub_cancel_left, shows.raw_eq]
      exact List.prefix_iff_eq_take.mp isPrefix
    · rw [shows.raw_eq, TagBytes.toList]
      simp
  · intro start starts
    rcases leftmost.exists_around (Nat.zero_le start) starts with ⟨one, oneMem, around⟩
    rcases exists_related shown.flip oneMem with ⟨tag, member, shows⟩
    refine ⟨tag, member, ?_⟩
    rwa [shows.offset_eq, shows.stop_eq]

/-- The second `<` begins a tag by itself, but stands in the tag that the first one begins. -/
theorem leftmost_scan_hidden :
    StartsTag (bytes "é<a <b>>") 5 ∧
      ∃ tag ∈ scan "é<a <b>>", tag.offset ≤ 5 ∧ 5 < tag.stop := by
  have starts : StartsTag (bytes "é<a <b>>") 5 := by
    refine ⟨⟨[], none, ['b'.toUInt8], []⟩, ⟨?_, ?_, ?_, ?_, ?_⟩, ?_⟩
    · exact fun byte inIndent => nomatch inIndent
    · exact fun spaces slash => nomatch slash
    · decide
    · exact fun byte isHead => nomatch isHead
    · decide
    · decide
  rcases leftmost_scan "é<a <b>>" with ⟨found, -, -, -, -, around⟩
  exact ⟨starts, around 5 starts⟩

end Tag

end MarkupPath
