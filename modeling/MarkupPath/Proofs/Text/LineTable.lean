import MarkupPath.Proofs.Text.Newlines
import MarkupPath.Text.LineTable

/-!
# Lines in a table

A line goes from its start to its newline, or to the end of the text, and a
place of the text is on one line. `OnLine` says that a place is on a line;
`LineTable.location` finds the line of a place and `LineTable.offsetAt` a place on
a line, so each of them undoes the other as far as nothing is clamped.
-/

namespace MarkupPath.LineTable

open Text

/-- The ends of the newlines are those of the newline bytes. -/
theorem newlineEnds_eq (offset : Nat) (text : List Char) :
    newlineEnds offset text = (newlines (encode text)).map (· + offset + 1) := by
  induction text generalizing offset with
  | nil => rfl
  | cons character rest ih =>
      rw [encode_cons, newlines_append, List.map_append, List.map_map, String.length_utf8EncodeChar]
      by_cases isNewline : character = '\n'
      · subst isNewline
        rw [newlineEnds, if_pos rfl, ih, utf8EncodeChar_of_ascii (by decide)]
        have width : '\n'.utf8Size = 1 := by decide
        simp [newlines, newline, width, Function.comp_def, Nat.add_comm, Nat.add_left_comm]
      · rw [newlineEnds, if_neg isNewline, ih,
          newlines_eq_nil_iff.mpr (newline_not_mem_of_ne isNewline)]
        simp [Function.comp_def, Nat.add_comm, Nat.add_left_comm]

theorem afterNewlines_ofText (text : String) :
    (ofText text).afterNewlines = (newlines (bytes text)).map (· + 1) := by
  rw [bytes_eq_encode]
  exact newlineEnds_eq 0 text.toList

/-- The lines start one behind the other, and within the text. -/
structure Ordered (table : LineTable) : Prop where
  ascending : table.lineStarts.Pairwise (· < ·)
  within : ∀ start ∈ table.lineStarts, start ≤ table.length

theorem ordered_ofText (text : String) : (ofText text).Ordered := by
  have length : (ofText text).length = (bytes text).length := (length_bytes text).symm
  constructor
  · rw [lineStarts, afterNewlines_ofText, List.pairwise_cons]
    constructor
    · intro start member
      rcases List.mem_map.mp member with ⟨place, -, rfl⟩
      exact Nat.succ_pos place
    · apply List.Pairwise.map _ _ List.pairwise_findIdxs
      intro place later before
      exact Nat.succ_lt_succ before
  · intro start member
    rw [lineStarts, afterNewlines_ofText] at member
    rw [length]
    rcases List.mem_cons.mp member with rfl | member
    · exact Nat.zero_le _
    · rcases List.mem_map.mp member with ⟨place, isNewline, rfl⟩
      exact lt_length_of_mem_newlines isNewline

/-- The table gives for every offset the position behind the bytes before it. -/
theorem location_ofText (text : String) (offset : Nat) :
    (ofText text).location offset = Position.behind ((bytes text).take offset) := by
  have length : (ofText text).length = (bytes text).length := (length_bytes text).symm
  have taken : ((bytes text).take offset).length = min offset (bytes text).length :=
    List.length_take
  -- The newlines that are passed are those of the bytes before the offset.
  have passed : (ofText text).afterNewlines.takeWhile (· ≤ min offset (bytes text).length) =
      (newlines ((bytes text).take offset)).map (· + 1) := by
    have split := newlines_append ((bytes text).take offset) ((bytes text).drop offset)
    rw [List.take_append_drop] at split
    rw [afterNewlines_ofText, split, List.map_append]
    apply LongestRun.takeWhile_append
    constructor
    · intro start member
      rcases List.mem_map.mp member with ⟨place, isNewline, rfl⟩
      have before := lt_length_of_mem_newlines isNewline
      rw [taken] at before
      exact decide_eq_true before
    · intro start isHead
      have member := List.mem_of_head? isHead
      rw [List.map_map] at member
      rcases List.mem_map.mp member with ⟨place, -, rfl⟩
      apply decide_eq_false
      simp only [Function.comp_apply, taken]
      omega
  have start : ((newlines ((bytes text).take offset)).map (· + 1)).getLastD 0 =
      lastLineStart ((bytes text).take offset) := by
    rw [List.getLastD_eq_getLast?, List.getLast?_map, lastLineStart]
    cases (newlines ((bytes text).take offset)).getLast? <;> rfl
  rw [location, length, passed, start, List.length_map, length_newlines, Position.behind, taken]

/-- The last place of a line: that of its newline, or the end of the text. -/
def lineStop (table : LineTable) (line : Nat) : Nat :=
  match table.lineStarts[line + 1]? with
  | some next => next - 1
  | none => table.length

/-- The place is on the line, which starts at `start`. -/
structure OnLine (table : LineTable) (line start place : Nat) : Prop where
  found : table.lineStarts[line]? = some start
  start_le : start ≤ place
  le_stop : place ≤ table.lineStop line

section Ordered

variable {table : LineTable} {line start place column : Nat}

theorem lineStop_of_next {next : Nat} (found : table.lineStarts[line + 1]? = some next) :
    table.lineStop line = next - 1 := by
  rw [lineStop, found]

theorem lineStop_of_last (last : table.lineStarts[line + 1]? = none) :
    table.lineStop line = table.length := by
  rw [lineStop, last]

theorem offsetAt_of_start (found : table.lineStarts[line]? = some start) (column : Nat) :
    table.offsetAt line column = min (start + column) (table.lineStop line) := by
  rw [offsetAt, found]
  rfl

theorem offsetAt_of_lineCount_le (beyond : table.lineCount ≤ line) (column : Nat) :
    table.offsetAt line column = table.length := by
  rw [offsetAt, List.getElem?_eq_none beyond]

theorem location_eq_location_min (table : LineTable) (offset : Nat) :
    table.location offset = table.location (min offset table.length) := by
  rw [location, location, Nat.min_assoc, Nat.min_self]

theorem exists_onLine (inText : place ≤ table.length) :
    ∃ line start, table.OnLine line start place := by
  have longest := longestRun_takeWhile (fun next => decide (next ≤ place)) table.afterNewlines
  have split := List.takeWhile_append_dropWhile (p := fun next => decide (next ≤ place))
    (l := table.afterNewlines)
  generalize table.afterNewlines.takeWhile (fun next => decide (next ≤ place)) = passed
    at longest split
  generalize table.afterNewlines.dropWhile (fun next => decide (next ≤ place)) = ahead
    at longest split
  have starts : table.lineStarts = (0 :: passed) ++ ahead := by rw [lineStarts, ← split]; rfl
  have inside : passed.length < (0 :: passed).length := Nat.lt_succ_self passed.length
  refine ⟨passed.length, (0 :: passed)[passed.length], ?_, ?_, ?_⟩
  · rw [starts, List.getElem?_append_left inside, List.getElem?_eq_getElem inside]
  · rcases List.mem_cons.mp (List.getElem_mem inside) with isZero | member
    · rw [isZero]
      exact Nat.zero_le place
    · exact of_decide_eq_true (longest.inside _ member)
  · have next : table.lineStarts[passed.length + 1]? = ahead.head? := by
      rw [starts, ← List.length_cons, List.getElem?_append_right (Nat.le_refl _), Nat.sub_self,
        List.head?_eq_getElem?]
    cases isHead : ahead.head? with
    | none => rwa [lineStop_of_last (next.trans isHead)]
    | some first =>
        have first_gt := of_decide_eq_false (longest.stops first isHead)
        rw [lineStop_of_next (next.trans isHead)]
        omega

variable (ordered : table.Ordered)

include ordered

theorem lt_of_lineStarts {later laterStart : Nat} (found : table.lineStarts[line]? = some start)
    (laterFound : table.lineStarts[later]? = some laterStart) (before : line < later) :
    start < laterStart := by
  rcases List.getElem?_eq_some_iff.mp found with ⟨inside, rfl⟩
  rcases List.getElem?_eq_some_iff.mp laterFound with ⟨laterInside, rfl⟩
  exact List.pairwise_iff_getElem.mp ordered.ascending line later inside laterInside before

theorem lineStop_le_length (line : Nat) : table.lineStop line ≤ table.length := by
  unfold lineStop
  split
  next next found =>
    have inside := ordered.within next (List.mem_of_getElem? found)
    omega
  next => exact Nat.le_refl _

theorem start_le_lineStop (found : table.lineStarts[line]? = some start) :
    start ≤ table.lineStop line := by
  unfold lineStop
  split
  next next isNext =>
    have before := lt_of_lineStarts ordered found isNext (Nat.lt_succ_self line)
    omega
  next => exact ordered.within start (List.mem_of_getElem? found)

/-- A line stops before a later one starts. -/
theorem lineStop_lt_start {later : Nat} (before : line < later)
    (found : table.lineStarts[later]? = some start) : table.lineStop line < start := by
  have inside := (List.getElem?_eq_some_iff.mp found).1
  have isNext : table.lineStarts[line + 1]? = some table.lineStarts[line + 1] :=
    List.getElem?_eq_getElem (Nat.lt_of_le_of_lt before inside)
  have here : table.lineStarts[line]? = some table.lineStarts[line] :=
    List.getElem?_eq_getElem (Nat.lt_trans before inside)
  have next_gt := lt_of_lineStarts ordered here isNext (Nat.lt_succ_self line)
  rw [lineStop_of_next isNext]
  rcases Nat.lt_or_eq_of_le (Nat.succ_le_of_lt before) with further | rfl
  · have start_gt := lt_of_lineStarts ordered isNext found further
    omega
  · rw [isNext, Option.some.injEq] at found
    omega

theorem OnLine.place_le (on : table.OnLine line start place) : place ≤ table.length :=
  Nat.le_trans on.le_stop (lineStop_le_length ordered line)

theorem OnLine.location_eq (on : table.OnLine line start place) :
    table.location place = ⟨place, line, place - start⟩ := by
  have inText : min place table.length = place := Nat.min_eq_left (on.place_le ordered)
  -- The starts up to that of the line are passed, and the next one is not.
  have longest : LongestRun (fun next => decide (next ≤ place)) (table.afterNewlines.take line)
      (table.afterNewlines.drop line) := by
    constructor
    · intro next member
      rcases List.mem_take_iff_getElem.mp member with ⟨index, inside, rfl⟩
      have isNext : table.lineStarts[index + 1]? = some table.afterNewlines[index] :=
        List.getElem?_eq_getElem (l := table.afterNewlines) (by omega)
      apply decide_eq_true
      rcases Nat.lt_or_eq_of_le (show index + 1 ≤ line by omega) with before | rfl
      · have start_gt := lt_of_lineStarts ordered isNext on.found before
        have start_le := on.start_le
        omega
      · have same := on.found
        rw [isNext, Option.some.injEq] at same
        exact same ▸ on.start_le
    · intro next isHead
      rw [List.head?_drop] at isHead
      have stop := on.le_stop
      have next_gt := lt_of_lineStarts ordered on.found isHead (Nat.lt_succ_self line)
      rw [lineStop_of_next isHead] at stop
      apply decide_eq_false
      omega
  have passed := longest.takeWhile_append
  rw [List.take_append_drop] at passed
  have inside : line < table.lineStarts.length := (List.getElem?_eq_some_iff.mp on.found).1
  have count : (table.afterNewlines.take line).length = line := by
    apply List.length_take_of_le
    exact Nat.le_of_lt_succ inside
  have lastStart : (table.afterNewlines.take line).getLastD 0 = start := by
    have found := on.found
    cases line with
    | zero => simpa [lineStarts] using found
    | succ line =>
        have isStart : table.afterNewlines[line]? = some start := found
        rw [List.take_add_one, isStart]
        simp
  rw [location, inText, passed, count, lastStart]

theorem onLine_offsetAt (found : table.lineStarts[line]? = some start) (column : Nat) :
    table.OnLine line start (table.offsetAt line column) := by
  have start_le := start_le_lineStop ordered found
  rw [offsetAt_of_start found]
  exact ⟨found, by omega, Nat.min_le_right _ _⟩

theorem offsetAt_le_length (line column : Nat) : table.offsetAt line column ≤ table.length := by
  cases found : table.lineStarts[line]? with
  | none => exact Nat.le_of_eq (offsetAt_of_lineCount_le (List.getElem?_eq_none_iff.mp found) column)
  | some start => exact (onLine_offsetAt ordered found column).place_le ordered

/-- A place that is located is found again, or else the end of the text is. -/
theorem offsetAt_location (offset : Nat) :
    table.offsetAt (table.location offset).line (table.location offset).column =
      min offset table.length := by
  rcases exists_onLine (Nat.min_le_right offset table.length) with ⟨line, start, on⟩
  have start_le := on.start_le
  have le_stop := on.le_stop
  rw [location_eq_location_min, on.location_eq ordered, offsetAt_of_start on.found]
  dsimp only
  omega

/-- What is further down, or further to the right on the same line, does not come earlier. -/
theorem offsetAt_le_offsetAt {later laterColumn : Nat}
    (before : line < later ∨ line = later ∧ column ≤ laterColumn) :
    table.offsetAt line column ≤ table.offsetAt later laterColumn := by
  cases found : table.lineStarts[later]? with
  | none =>
      rw [offsetAt_of_lineCount_le (List.getElem?_eq_none_iff.mp found)]
      exact offsetAt_le_length ordered line column
  | some start =>
      rcases before with above | ⟨rfl, left⟩
      · have inside := (List.getElem?_eq_some_iff.mp found).1
        have here : table.lineStarts[line]? = some table.lineStarts[line] :=
          List.getElem?_eq_getElem (Nat.lt_trans above inside)
        calc table.offsetAt line column
          _ ≤ table.lineStop line := (onLine_offsetAt ordered here column).le_stop
          _ ≤ start := Nat.le_of_lt (lineStop_lt_start ordered above found)
          _ ≤ table.offsetAt later laterColumn := (onLine_offsetAt ordered found _).start_le
      · rw [offsetAt_of_start found, offsetAt_of_start found]
        omega

end Ordered

section Lines

theorem getD_map_succ (places : List Nat) (index length : Nat) :
    ((places.map (· + 1))[index]?).getD (length + 1) = (places[index]?).getD length + 1 := by
  rw [List.getElem?_map]
  cases places[index]? <;> rfl

theorem map_starts_succ (places : List Nat) (offset : Nat) :
    (places.map (· + 1)).map (· + offset + 1) = places.map (· + (offset + 1) + 1) := by
  simp [Function.comp_def, Nat.add_comm, Nat.add_left_comm]

/-- A line starts behind the newline before it and goes on to the next one. -/
theorem exists_start_of_line {bytes content : List UInt8} {line : Nat}
    (isLine : (bytes.splitOn newline)[line]? = some content) (offset : Nat) :
    ∃ start, (offset :: (newlines bytes).map (· + offset + 1))[line]? = some start ∧
      ((newlines bytes)[line]?).getD bytes.length + offset = start + content.length := by
  induction bytes generalizing line content offset with
  | nil =>
      cases line with
      | zero =>
          rcases Option.some.inj isLine with rfl
          exact ⟨offset, rfl, by simp [newlines]⟩
      | succ line => simp at isLine
  | cons byte rest ih =>
      rw [List.splitOn_cons_eq_if_modifyHead] at isLine
      rw [newlines_cons, List.length_cons]
      by_cases isNewline : byte = newline
      · rw [if_pos (beq_iff_eq.mpr isNewline)] at isLine
        rw [if_pos isNewline]
        cases line with
        | zero =>
            rcases Option.some.inj isLine with rfl
            exact ⟨offset, rfl, by simp⟩
        | succ line =>
            rcases ih isLine (offset + 1) with ⟨start, found, stop⟩
            refine ⟨start, ?_, ?_⟩
            · rw [List.map_cons, map_starts_succ, List.getElem?_cons_succ, Nat.zero_add]
              exact found
            · rw [List.getElem?_cons_succ, getD_map_succ]
              omega
      · rw [if_neg (by simpa using isNewline)] at isLine
        rw [if_neg isNewline]
        cases line with
        | zero =>
            cases lines : rest.splitOn newline with
            | nil => exact absurd lines (List.splitOn_ne_nil newline rest)
            | cons first more =>
                rw [lines] at isLine
                rcases Option.some.inj isLine with rfl
                have isFirst : (rest.splitOn newline)[0]? = some first := by
                  rw [lines]
                  rfl
                rcases ih isFirst (offset + 1) with ⟨start, found, stop⟩
                rcases Option.some.inj found with rfl
                refine ⟨offset, rfl, ?_⟩
                rw [getD_map_succ, List.length_cons]
                omega
        | succ line =>
            rw [List.getElem?_modifyHead] at isLine
            have isLater : (rest.splitOn newline)[line + 1]? = some content := by
              simpa using isLine
            rcases ih isLater (offset + 1) with ⟨start, found, stop⟩
            refine ⟨start, ?_, ?_⟩
            · rw [map_starts_succ]
              exact found
            · rw [getD_map_succ]
              omega

theorem length_splitOn (bytes : List UInt8) :
    (bytes.splitOn newline).length = bytes.count newline + 1 := by
  induction bytes with
  | nil => rfl
  | cons byte rest ih =>
      rw [List.splitOn_cons_eq_if_modifyHead, List.count_cons]
      split <;> simp [ih]

theorem lineCount_ofText (text : String) :
    (ofText text).lineCount = ((bytes text).splitOn newline).length := by
  rw [length_splitOn, lineCount, lineStarts, afterNewlines_ofText, List.length_cons,
    List.length_map, length_newlines]

/-- On a line there is room for as many columns as it has bytes, and for its newline. -/
theorem location_offsetAt {text : String} {line : Nat} {content : List UInt8}
    (isLine : ((bytes text).splitOn newline)[line]? = some content) (column : Nat) :
    (ofText text).location ((ofText text).offsetAt line column) =
      ⟨(ofText text).offsetAt line column, line, min column content.length⟩ := by
  rcases exists_start_of_line isLine 0 with ⟨start, found, stop⟩
  have starts : (ofText text).lineStarts = 0 :: (newlines (bytes text)).map (· + 0 + 1) := by
    rw [lineStarts, afterNewlines_ofText]
  rw [← starts] at found
  have lineStop : (ofText text).lineStop line = start + content.length := by
    have next : (ofText text).lineStarts[line + 1]? =
        ((newlines (bytes text))[line]?).map (· + 1) := by
      rw [starts, List.getElem?_cons_succ, List.getElem?_map]
    rw [← stop, LineTable.lineStop, next]
    cases (newlines (bytes text))[line]? with
    | none => exact (length_bytes text).symm
    | some place => rfl
  rw [(onLine_offsetAt (ordered_ofText text) found column).location_eq (ordered_ofText text),
    offsetAt_of_start found, lineStop]
  simp only [Position.mk.injEq, true_and]
  omega

end Lines

end MarkupPath.LineTable
