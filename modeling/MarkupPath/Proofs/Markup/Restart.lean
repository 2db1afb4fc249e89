import MarkupPath.Proofs.Markup.Grammar

/-!
# Scans from the middle of a text

A scan may begin anywhere. Where it begins outside of the tags of the text, it
finds those that are left. Inside of a tag it may take a further `<` for the
beginning of a tag, but such a tag ends where the one around it ends, at the first
`>` there is. So from there on the two scans are the same.
-/

namespace MarkupPath

namespace Position

/-- A place before the end of a tag is found in the text of the tag. -/
theorem exists_seek_before_end {start : Nat} {position : Position} {front : List Char}
    (inside : start < (position.advanceOver (front ++ ['>'])).offset) (after : List Char) :
    ∃ passed inner, front = passed ++ inner ∧ start ≤ (position.advanceOver passed).offset ∧
      seek start position (front ++ '>' :: after) =
        (position.advanceOver passed, inner ++ '>' :: after) := by
  induction front generalizing position with
  | nil =>
      have width : '>'.utf8Size = 1 := by decide
      have reached : start ≤ position.offset := by
        rw [List.nil_append, advanceOver_cons, advanceOver_nil, offset_advance, width] at inside
        omega
      exact ⟨[], [], rfl, reached, seek_of_le reached _⟩
  | cons character front ih =>
      by_cases reached : start ≤ position.offset
      · exact ⟨[], character :: front, rfl, reached, seek_of_le reached _⟩
      · rcases ih inside with ⟨passed, inner, rfl, further, found⟩
        refine ⟨character :: passed, inner, rfl, further, ?_⟩
        rw [List.cons_append, seek, if_pos (Nat.lt_of_not_le reached), found]
        rfl

theorem mem_of_mem_seek {start : Nat} {position : Position} {text : List Char} {character : Char}
    (member : character ∈ (seek start position text).2) : character ∈ text := by
  induction text generalizing position with
  | nil => exact member
  | cons first rest ih =>
      rw [seek] at member
      split at member
      · exact List.mem_cons_of_mem first (ih member)
      · exact member

end Position

namespace Tag

/-- No tag is found where none ends. -/
theorem scanAt_of_end_not_mem {text : List Char} (endless : '>' ∉ text) (position : Position) :
    scanAt position text = [] := by
  cases found : scanAt position text with
  | nil => rfl
  | cons tag rest =>
      rcases exists_scansTo found with ⟨skipped, body, lexeme, after, scans⟩
      refine absurd ?_ endless
      rw [scans.split, Lexeme.append_of_read scans.reading, Lexeme.toList]
      simp

/-- Up to the first `>` there is at most one tag, and that tag ends with it. -/
theorem exists_scanAt_before_end {inner : List Char} (noEnd : '>' ∉ inner) (position : Position)
    (after : List Char) :
    ∃ extra : Option Tag,
      scanAt position (inner ++ '>' :: after) =
          extra.toList ++ scanAt (position.advanceOver (inner ++ ['>'])) after ∧
        ∀ tag, extra = some tag → position.offset ≤ tag.offset ∧
          tag.stop = (position.advanceOver (inner ++ ['>'])).offset := by
  induction inner generalizing position with
  | nil => exact ⟨none, scanAt_of_ne (by decide), fun tag isExtra => nomatch isExtra⟩
  | cons first inner ih =>
      rw [List.mem_cons, not_or] at noEnd
      -- Where no tag begins, the scan goes on with the next character.
      have further : scanAt position (first :: (inner ++ '>' :: after)) =
          scanAt (position.advance first) (inner ++ '>' :: after) →
            ∃ extra : Option Tag,
              scanAt position (first :: (inner ++ '>' :: after)) =
                  extra.toList ++ scanAt (position.advanceOver (first :: inner ++ ['>'])) after ∧
                ∀ tag, extra = some tag → position.offset ≤ tag.offset ∧
                  tag.stop = (position.advanceOver (first :: inner ++ ['>'])).offset := by
        intro passes
        rcases ih noEnd.2 (position.advance first) with ⟨extra, found, ends⟩
        refine ⟨extra, passes.trans found, ?_⟩
        intro tag isExtra
        rcases ends tag isExtra with ⟨offset_ge, stop_eq⟩
        rw [Position.offset_advance] at offset_ge
        exact ⟨Nat.le_trans (Nat.le_add_right _ _) offset_ge, stop_eq⟩
      by_cases bracket : first = '<'
      · subst bracket
        cases reading : Lexeme.read (inner ++ '>' :: after) with
        | notATag => exact further (scanAt_of_notATag reading)
        | endless =>
            exact absurd (by simp) (Lexeme.end_not_mem_of_endless reading)
        | tag lexeme rest =>
            rcases Lexeme.toList_of_read noEnd.2 reading with ⟨spelled, rfl⟩
            refine ⟨some (lexeme.toTag position), ?_, ?_⟩
            · rw [List.cons_append, scanAt_of_tag reading, spelled]
              rfl
            · rintro tag ⟨⟩
              refine ⟨Nat.le_refl _, ?_⟩
              rw [stop_toTag, spelled, List.cons_append]
      · exact further (scanAt_of_ne bracket)

theorem filter_offset_ge {start : Nat} {position : Position} (reached : start ≤ position.offset)
    (text : List Char) :
    (scanAt position text).filter (start ≤ ·.offset) = scanAt position text := by
  rw [List.filter_eq_self]
  intro tag member
  have offset_ge := ((offsets_of_scanAt (rfl : scanAt position text = _)).1 tag member).1
  exact decide_eq_true (Nat.le_trans reached offset_ge)

/-- The tags that a scan finds if it begins at the offset `start` of the text or behind it. -/
def rescan (start : Nat) (position : Position) (text : List Char) : List Tag :=
  scanAt (Position.seek start position text).1 (Position.seek start position text).2

/--
The later scan has the tags from `start` on. There is one more tag at most before them, and only if
`start` is inside of a tag that ends like it.
-/
def Resumes (start : Nat) (tags later : List Tag) : Prop :=
  ∃ extra : Option Tag,
    later = extra.toList ++ tags.filter (start ≤ ·.offset) ∧
      ∀ inner, extra = some inner → start ≤ inner.offset ∧
        ∃ tag ∈ tags, tag.offset < start ∧ start < tag.stop ∧ inner.stop = tag.stop

section Resumes

variable {start : Nat} {position : Position}

theorem resumes_of_le (reached : start ≤ position.offset) (text : List Char) :
    Resumes start (scanAt position text) (rescan start position text) := by
  refine ⟨none, ?_, fun inner isExtra => nomatch isExtra⟩
  rw [rescan, Position.seek_of_le reached, filter_offset_ge reached]
  rfl

theorem resumes_of_end_not_mem {text : List Char} (endless : '>' ∉ text) (position : Position) :
    Resumes start [] (rescan start position text) := by
  refine ⟨none, ?_, fun inner isExtra => nomatch isExtra⟩
  rw [rescan, scanAt_of_end_not_mem fun member => endless (Position.mem_of_mem_seek member)]
  rfl

/-- A tag before the beginning of the later scan changes nothing. -/
theorem Resumes.cons {tags later : List Tag} (resumes : Resumes start tags later) {tag : Tag}
    (before : tag.offset < start) : Resumes start (tag :: tags) later := by
  rcases resumes with ⟨extra, found, around⟩
  refine ⟨extra, ?_, ?_⟩
  · rw [List.filter_cons_of_neg (by simp [before]), found]
  · intro inner isExtra
    rcases around inner isExtra with ⟨offset_ge, outer, member, inside⟩
    exact ⟨offset_ge, outer, List.mem_cons_of_mem tag member, inside⟩

theorem Resumes.of_advance {first : Char} {rest : List Char}
    (passes : scanAt position (first :: rest) = scanAt (position.advance first) rest)
    (further : Resumes start (scanAt (position.advance first) rest)
      (rescan start (position.advance first) rest)) :
    Resumes start (scanAt (position.advance first) rest)
      (rescan start position (first :: rest)) := by
  by_cases reached : start ≤ position.offset
  · rw [← passes]
    exact resumes_of_le reached _
  · rw [rescan, Position.seek, if_pos (Nat.lt_of_not_le reached)]
    exact further

/-- A scan that begins in a tag finds the end of the tag. -/
theorem resumes_inside {front : List Char} (notInFront : '>' ∉ front) {tag : Tag}
    (stop_eq : tag.stop = (position.advanceOver (front ++ ['>'])).offset)
    (before : tag.offset < start) (inside : start < tag.stop) (after : List Char) :
    Resumes start (tag :: scanAt (position.advanceOver (front ++ ['>'])) after)
      (rescan start position (front ++ '>' :: after)) := by
  rw [stop_eq] at inside
  rcases Position.exists_seek_before_end inside after with ⟨passed, inner, rfl, reached, place⟩
  have noEnd : '>' ∉ inner := fun member => notInFront (List.mem_append_right passed member)
  rcases exists_scanAt_before_end noEnd (position.advanceOver passed) after with
    ⟨extra, found, ends⟩
  rw [← Position.advanceOver_append, ← List.append_assoc] at found ends
  refine ⟨extra, ?_, ?_⟩
  · rw [rescan, place, found, List.filter_cons_of_neg (by simp [before]),
      filter_offset_ge (Nat.le_of_lt inside)]
  · intro further isExtra
    rcases ends further isExtra with ⟨offset_ge, same⟩
    refine ⟨Nat.le_trans reached offset_ge, tag, List.mem_cons_self, before, ?_, ?_⟩
    · rwa [stop_eq]
    · rw [same, stop_eq]

end Resumes

theorem resumes_scanAt (start : Nat) (position : Position) (text : List Char) :
    Resumes start (scanAt position text) (rescan start position text) := by
  fun_induction scanAt position text with
  | case1 position => exact resumes_of_end_not_mem (by simp) position
  | case2 position body lexeme after reading ih =>
      by_cases reached : start ≤ position.offset
      · rw [← scanAt_of_tag reading]
        exact resumes_of_le reached _
      · have before := Nat.lt_of_not_le reached
        rw [Lexeme.append_of_read reading]
        by_cases ended : (position.advanceOver lexeme.toList).offset ≤ start
        · rw [rescan, Position.seek_append_of_le ended]
          exact ih.cons before
        · rcases Lexeme.exists_toList_eq_concat reading with ⟨front, spelled, notInFront⟩
          have stop_eq := stop_toTag lexeme position
          have inside : start < (lexeme.toTag position).stop := by omega
          rw [spelled] at stop_eq ⊢
          rw [List.append_assoc, List.singleton_append]
          exact resumes_inside notInFront stop_eq before inside after
  | case3 position body notATag ih => exact ih.of_advance (scanAt_of_notATag notATag)
  | case4 position body endless =>
      have noEnd : '>' ∉ '<' :: body := by simp [Lexeme.end_not_mem_of_endless endless]
      exact resumes_of_end_not_mem noEnd position
  | case5 position first text other ih => exact ih.of_advance (scanAt_of_ne other)

/-- A place is inside of one tag at most. -/
theorem eq_of_inside {text : String} {start : Nat} {tag other : Tag} (member : tag ∈ scan text)
    (otherMem : other ∈ scan text) (before : tag.offset < start) (inside : start < tag.stop)
    (otherBefore : other.offset < start) (otherInside : start < other.stop) : tag = other := by
  have ordered := scan_pairwise text
  rcases List.append_of_mem member with ⟨earlier, later, split⟩
  rw [split, List.pairwise_append, List.pairwise_cons] at ordered
  rw [split, List.mem_append, List.mem_cons] at otherMem
  rcases otherMem with isEarlier | rfl | isLater
  · have order := ordered.2.2 other isEarlier tag List.mem_cons_self
    omega
  · rfl
  · have order := ordered.2.1.1 other isLater
    omega

/--
A scan that begins outside of the tags of a text gives those of them that are left. One that begins
in a tag gives these too, and before them at most one more, which begins in that tag and ends with
it.
-/
theorem scanFrom_eq_filter (text : String) (start : Nat) :
    ((∀ tag ∈ scan text, ¬(tag.offset < start ∧ start < tag.stop)) →
        scanFrom text start = (scan text).filter (start ≤ ·.offset)) ∧
      ∀ tag ∈ scan text, tag.offset < start → start < tag.stop →
        ∃ extra : Option Tag,
          scanFrom text start = extra.toList ++ (scan text).filter (start ≤ ·.offset) ∧
            ∀ inner, extra = some inner →
              start ≤ inner.offset ∧ inner.offset < tag.stop ∧ inner.stop = tag.stop := by
  have resumes := resumes_scanAt start .origin text.toList
  rw [← scan_eq_scanAt] at resumes
  rcases resumes with ⟨extra, found, around⟩
  have later : scanFrom text start = extra.toList ++ (scan text).filter (start ≤ ·.offset) := found
  constructor
  · intro outside
    cases extra with
    | none => exact later
    | some inner =>
        rcases around inner rfl with ⟨-, outer, member, before, inside, -⟩
        exact absurd ⟨before, inside⟩ (outside outer member)
  · intro tag member before inside
    refine ⟨extra, later, ?_⟩
    rintro inner rfl
    rcases around inner rfl with ⟨offset_ge, outer, outerMem, outerBefore, outerInside, same⟩
    have sameTag := eq_of_inside member outerMem before inside outerBefore outerInside
    subst sameTag
    have innerMem : inner ∈ scanFrom text start := by
      rw [later]
      simp
    have length := ((offsets_of_scanAt (rfl : scanFrom text start = _)).1 inner innerMem).2
    exact ⟨offset_ge, by omega, same⟩

/-- A scan that begins in the `é` finds the `b` in the value; one that begins behind it does not. -/
theorem scanFrom_in_value :
    (∃ tag ∈ scan "<a é='<b'>\n<c/>", tag.offset < 4 ∧ 4 < tag.stop ∧
      ∃ extra : Option Tag,
        scanFrom "<a é='<b'>\n<c/>" 4 =
            extra.toList ++ (scan "<a é='<b'>\n<c/>").filter (4 ≤ ·.offset) ∧
          ∀ inner, extra = some inner → 4 ≤ inner.offset ∧ inner.offset < tag.stop ∧
            inner.stop = tag.stop) ∧
      (∀ tag ∈ scan "<a é='<b'>\n<c/>", ¬(tag.offset < 11 ∧ 11 < tag.stop)) ∧
      scanFrom "<a é='<b'>\n<c/>" 11 = (scan "<a é='<b'>\n<c/>").filter (11 ≤ ·.offset) := by
  have around : ∃ tag ∈ scan "<a é='<b'>\n<c/>", tag.offset < 4 ∧ 4 < tag.stop := by
    decide +kernel
  have outside : ∀ tag ∈ scan "<a é='<b'>\n<c/>", ¬(tag.offset < 11 ∧ 11 < tag.stop) := by
    decide +kernel
  rcases around with ⟨tag, member, before, inside⟩
  refine ⟨⟨tag, member, before, inside, ?_⟩, outside, ?_⟩
  · exact (scanFrom_eq_filter "<a é='<b'>\n<c/>" 4).2 tag member before inside
  · exact (scanFrom_eq_filter "<a é='<b'>\n<c/>" 11).1 outside

example : (scanFrom "<a é='<b'>\n<c/>" 4).map Tag.start = [⟨7, 0, 7⟩, ⟨12, 1, 0⟩] := by
  decide +kernel

end Tag

end MarkupPath
