import Mathlib.Data.Prod.Lex
import MarkupPath.Proofs.Text.LineTable

/-!
# Line tables in machine words

A line table as a machine holds it: the line starts and the length are words of 64
bits, the line of an offset is found by halving, and a sum or a difference that is
no word is refused. For a text that fits into memory nothing is refused, whatever
words are asked for, and the answers are those of the table of natural numbers.
-/

namespace MarkupPath

namespace Word

/-- The sum, if it is a word. -/
def plus? (left right : UInt64) : Option UInt64 :=
  if left.toNat + right.toNat < UInt64.size then some (left + right) else none

def minus? (left right : UInt64) : Option UInt64 :=
  if right ≤ left then some (left - right) else none

/-- The sum, or the greatest word if the sum is none. -/
def plusCapped (left right : UInt64) : UInt64 :=
  (plus? left right).getD (UInt64.ofNat (UInt64.size - 1))

theorem exists_plus? (left right : UInt64)
    (fits : left.toNat + right.toNat < UInt64.size) :
    ∃ sum, plus? left right = some sum ∧ sum.toNat = left.toNat + right.toNat := by
  refine ⟨left + right, if_pos fits, ?_⟩
  rw [UInt64.toNat_add]
  exact Nat.mod_eq_of_lt fits

theorem exists_minus? (left right : UInt64) (ordered : right.toNat ≤ left.toNat) :
    ∃ difference, minus? left right = some difference ∧
      difference.toNat = left.toNat - right.toNat := by
  have ordered := UInt64.le_iff_toNat_le.mpr ordered
  exact ⟨left - right, if_pos ordered, UInt64.toNat_sub_of_le left right ordered⟩

theorem toNat_min (left right : UInt64) : (min left right).toNat = min left.toNat right.toNat := by
  rw [Nat.min_def, UInt64.min_def]
  simp only [UInt64.le_iff_toNat_le]
  split <;> rfl

/-- The cap is not seen below a word. -/
theorem min_plusCapped (left right bound : UInt64) :
    (min (plusCapped left right) bound).toNat = min (left.toNat + right.toNat) bound.toNat := by
  have bound_lt := bound.toNat_lt_size
  rw [toNat_min]
  by_cases fits : left.toNat + right.toNat < UInt64.size
  · rcases exists_plus? left right fits with ⟨sum, found, toNat_sum⟩
    rw [plusCapped, found, Option.getD_some, toNat_sum]
  · have cap : (UInt64.ofNat (UInt64.size - 1)).toNat = UInt64.size - 1 := by decide
    rw [plusCapped, plus?, if_neg fits, Option.getD_none, cap]
    omega

end Word

/-- The first place of a range at which the property fails, found by halving the range. -/
def partitionPoint (holds : Nat → Bool) (low high : Nat) : Nat :=
  if low < high then
    if holds (low + (high - low) / 2) then partitionPoint holds (low + (high - low) / 2 + 1) high
    else partitionPoint holds low (low + (high - low) / 2)
  else low
termination_by high - low

/-- Halving finds the bound of a property that holds below it and nowhere else. -/
theorem partitionPoint_eq {holds : Nat → Bool} {low high bound : Nat}
    (splits : ∀ place, low ≤ place → place < high → (holds place = true ↔ place < bound))
    (low_le : low ≤ bound) (le_high : bound ≤ high) :
    partitionPoint holds low high = bound := by
  fun_induction partitionPoint holds low high with
  | case1 low high open_ middle ih =>
      have below := (splits _ (by omega) (by omega)).mp middle
      apply ih
      · intro place place_ge place_lt
        exact splits place (by omega) place_lt
      · omega
      · exact le_high
  | case2 low high open_ middle ih =>
      have beyond := mt (splits _ (by omega) (by omega)).mpr middle
      apply ih
      · intro place place_ge place_lt
        exact splits place place_ge (by omega)
      · exact low_le
      · omega
  | case3 low high closed => omega

structure WordTable where
  /-- Where each line starts, in ascending order. -/
  lineStarts : List UInt64
  length : UInt64

namespace WordTable

def ofText? (text : String) : Option WordTable := do
  let starts ← (Text.newlines (Text.bytes text)).mapM fun place => Word.plus? place.toUInt64 1
  some ⟨0 :: starts, text.utf8ByteSize.toUInt64⟩

/-- The line and the column of an offset, if no difference is refused on the way. -/
def location? (words : WordTable) (offset : UInt64) : Option (UInt64 × UInt64) := do
  let place := min offset words.length
  let passed := partitionPoint (fun line => (words.lineStarts[line]?).any (· ≤ place)) 0
    words.lineStarts.length
  let line ← Word.minus? passed.toUInt64 1
  let start ← words.lineStarts[line.toNat]?
  let column ← Word.minus? place start
  some (line, column)

/-- Where a line stops, by the number of the line after it. -/
def stopBefore? (words : WordTable) (following : UInt64) : Option UInt64 :=
  match words.lineStarts[following.toNat]? with
  | some next => Word.minus? next 1
  | none => some words.length

/-- The offset of a line and a column, if no sum or difference is refused on the way. -/
def offsetAt? (words : WordTable) (line column : UInt64) : Option UInt64 :=
  match words.lineStarts[line.toNat]? with
  | none => some words.length
  | some start => do
      let following ← Word.plus? line 1
      let stop ← words.stopBefore? following
      some (min (Word.plusCapped start column) stop)

/-- The words are those of a table with lines enough to be counted in words. -/
structure Holds (words : WordTable) (table : LineTable) : Prop where
  starts : words.lineStarts.map UInt64.toNat = table.lineStarts
  length : words.length.toNat = table.length
  few : table.lineCount < UInt64.size

theorem exists_holds_ofText {text : String} (fits : text.utf8ByteSize + 1 < UInt64.size) :
    ∃ words, ofText? text = some words ∧ words.Holds (LineTable.ofText text) := by
  have size : UInt64.size = 18446744073709551616 := rfl
  have plusOne : ∀ places : List Nat, (∀ place ∈ places, place < text.utf8ByteSize) →
      ∃ starts, (places.mapM fun place => Word.plus? place.toUInt64 1) = some starts ∧
        starts.map UInt64.toNat = places.map (· + 1) := by
    intro places inText
    induction places with
    | nil => exact ⟨[], rfl, rfl⟩
    | cons place rest ih =>
        rcases ih fun later member => inText later (List.mem_cons_of_mem place member) with
          ⟨starts, found, same⟩
        have place_lt := inText place List.mem_cons_self
        have word : place.toUInt64.toNat = place := UInt64.toNat_ofNat_of_lt' (by omega)
        have one : (1 : UInt64).toNat = 1 := rfl
        rcases Word.exists_plus? place.toUInt64 1 (by omega) with
          ⟨start, isStart, toNat_start⟩
        refine ⟨start :: starts, by simp [List.mapM_cons, isStart, found], ?_⟩
        rw [List.map_cons, List.map_cons, same, toNat_start, word, one]
  have inText : ∀ place ∈ Text.newlines (Text.bytes text), place < text.utf8ByteSize := by
    intro place member
    rw [← Text.length_bytes]
    exact Text.lt_length_of_mem_newlines member
  rcases plusOne _ inText with ⟨starts, found, same⟩
  refine ⟨⟨0 :: starts, text.utf8ByteSize.toUInt64⟩, by simp [ofText?, found], ?_, ?_, ?_⟩
  · rw [List.map_cons, same, ← LineTable.afterNewlines_ofText]
    rfl
  · exact UInt64.toNat_ofNat_of_lt' (by omega)
  · have count : (Text.bytes text).count Text.newline ≤ (Text.bytes text).length :=
      List.count_le_length
    rw [Text.length_bytes] at count
    rw [LineTable.lineCount_ofText, LineTable.length_splitOn]
    omega

section Holds

variable {words : WordTable} {table : LineTable} (holds : words.Holds table)

include holds

theorem Holds.lineStarts_getElem? (line : Nat) :
    (words.lineStarts[line]?).map UInt64.toNat = table.lineStarts[line]? := by
  rw [← holds.starts, List.getElem?_map]

theorem Holds.exists_start {line start : Nat} (found : table.lineStarts[line]? = some start) :
    ∃ word, words.lineStarts[line]? = some word ∧ word.toNat = start :=
  Option.map_eq_some_iff.mp ((holds.lineStarts_getElem? line).trans found)

theorem Holds.lineStarts_eq_none {line : Nat} (none : table.lineStarts[line]? = none) :
    words.lineStarts[line]? = Option.none :=
  Option.map_eq_none_iff.mp ((holds.lineStarts_getElem? line).trans none)

variable (ordered : table.Ordered)

include ordered

/-- Halving finds the start behind those of all lines up to the one that a place is on. -/
theorem partitionPoint_lineStarts {line start : Nat} {place : UInt64}
    (on : table.OnLine line start place.toNat) :
    partitionPoint (fun line => (words.lineStarts[line]?).any (· ≤ place)) 0
      words.lineStarts.length = line + 1 := by
  have inside : line < table.lineStarts.length := (List.getElem?_eq_some_iff.mp on.found).1
  have length : words.lineStarts.length = table.lineStarts.length := by
    rw [← holds.starts, List.length_map]
  apply partitionPoint_eq
  · intro other _ other_lt
    rw [length] at other_lt
    have found : table.lineStarts[other]? = some table.lineStarts[other] :=
      List.getElem?_eq_getElem other_lt
    rcases holds.exists_start found with ⟨word, isWord, toNat_word⟩
    rw [isWord, Option.any_some, decide_eq_true_eq, UInt64.le_iff_toNat_le, toNat_word]
    have start_le := on.start_le
    have le_stop := on.le_stop
    rcases Nat.lt_trichotomy other line with above | rfl | below
    · have start_gt := LineTable.lt_of_lineStarts ordered found on.found above
      omega
    · have same := on.found
      rw [found, Option.some.injEq] at same
      omega
    · have start_gt := LineTable.lineStop_lt_start ordered below found
      omega
  · exact Nat.zero_le _
  · rw [length]
    exact inside

theorem location?_eq (offset : UInt64) :
    (words.location? offset).map (fun (line, column) => (line.toNat, column.toNat)) =
      some ((table.location offset.toNat).line, (table.location offset.toNat).column) := by
  have place : (min offset words.length).toNat = min offset.toNat table.length := by
    rw [Word.toNat_min, holds.length]
  rcases LineTable.exists_onLine (Nat.min_le_right offset.toNat table.length) with
    ⟨line, start, on⟩
  have start_le := on.start_le
  have inside : line < table.lineStarts.length := (List.getElem?_eq_some_iff.mp on.found).1
  have few : table.lineStarts.length < UInt64.size := holds.few
  have located := on.location_eq ordered
  rw [← place] at on start_le located
  have passed := partitionPoint_lineStarts holds ordered on
  have toNat_passed : (line + 1).toUInt64.toNat = line + 1 :=
    UInt64.toNat_ofNat_of_lt' (by omega)
  have one : (1 : UInt64).toNat = 1 := rfl
  rcases Word.exists_minus? (line + 1).toUInt64 1 (by omega) with
    ⟨lineWord, isLine, toNat_line⟩
  rw [toNat_passed, one, Nat.add_sub_cancel] at toNat_line
  rcases holds.exists_start on.found with ⟨startWord, isStart, toNat_start⟩
  rcases Word.exists_minus? (min offset words.length) startWord (by omega) with
    ⟨columnWord, isColumn, toNat_column⟩
  rw [LineTable.location_eq_location_min, ← place, located]
  simp only [location?, passed, isLine, Option.bind_eq_bind, Option.bind_some, toNat_line, isStart,
    isColumn, Option.map_some, toNat_column, toNat_start]

theorem exists_stopBefore? {line start : Nat} {following : UInt64}
    (found : table.lineStarts[line]? = some start) (isFollowing : following.toNat = line + 1) :
    ∃ stop, words.stopBefore? following = some stop ∧ stop.toNat = table.lineStop line := by
  rw [stopBefore?, isFollowing]
  cases next : table.lineStarts[line + 1]? with
  | none =>
      rw [holds.lineStarts_eq_none next, LineTable.lineStop_of_last next]
      exact ⟨words.length, rfl, holds.length⟩
  | some nextStart =>
      -- The next line is not the first one, so there is a place before its start.
      have start_lt := LineTable.lt_of_lineStarts ordered found next (Nat.lt_succ_self line)
      have one : (1 : UInt64).toNat = 1 := rfl
      rcases holds.exists_start next with ⟨nextWord, isNext, rfl⟩
      rw [isNext, LineTable.lineStop_of_next next]
      exact Word.exists_minus? nextWord 1 (by omega)

theorem offsetAt?_eq (line column : UInt64) :
    (words.offsetAt? line column).map UInt64.toNat =
      some (table.offsetAt line.toNat column.toNat) := by
  cases found : table.lineStarts[line.toNat]? with
  | none =>
      have beyond : table.lineCount ≤ line.toNat := List.getElem?_eq_none_iff.mp found
      rw [LineTable.offsetAt_of_lineCount_le beyond, offsetAt?, holds.lineStarts_eq_none found,
        Option.map_some, holds.length]
  | some start =>
      have inside : line.toNat < table.lineStarts.length := (List.getElem?_eq_some_iff.mp found).1
      have few : table.lineStarts.length < UInt64.size := holds.few
      have one : (1 : UInt64).toNat = 1 := rfl
      rcases holds.exists_start found with ⟨startWord, isStart, toNat_start⟩
      rcases Word.exists_plus? line 1 (by omega) with
        ⟨following, isFollowing, toNat_following⟩
      rcases exists_stopBefore? holds ordered found toNat_following with ⟨stop, isStop, toNat_stop⟩
      rw [LineTable.offsetAt_of_start found, ← toNat_start, ← toNat_stop,
        ← Word.min_plusCapped, offsetAt?, isStart]
      simp only [isFollowing, isStop, Option.bind_eq_bind, Option.bind_some, Option.map_some]

end Holds

end WordTable

namespace LineTable

/--
Offsets and places on lines are turned into one another without loss, but for offsets behind the
text, columns behind a line's newline and lines behind the last, which are clamped. The further
place on a line or below it has the greater offset. If words of 64 bits can count the lines of the
text, a machine with such words gives the same answers for all of them, and no sum or difference
overflows on the way.
-/
theorem conversions_ofText (text : String) :
    (∀ offset, (ofText text).offsetAt ((ofText text).location offset).line
        ((ofText text).location offset).column = min offset text.utf8ByteSize) ∧
      (∀ line, line < (ofText text).lineCount →
        ∃ content, ((Text.bytes text).splitOn Text.newline)[line]? = some content ∧
          ∀ column, (ofText text).location ((ofText text).offsetAt line column) =
            ⟨(ofText text).offsetAt line column, line, min column content.length⟩) ∧
      (∀ line column, (ofText text).lineCount ≤ line →
        (ofText text).offsetAt line column = text.utf8ByteSize) ∧
      (∀ line column later laterColumn,
        toLex (line, column) ≤ toLex (later, laterColumn) →
          (ofText text).offsetAt line column ≤ (ofText text).offsetAt later laterColumn) ∧
      (text.utf8ByteSize + 1 < UInt64.size → ∃ words, WordTable.ofText? text = some words ∧
        (∀ offset, (words.location? offset).map (fun (line, column) => (line.toNat, column.toNat)) =
          some (((ofText text).location offset.toNat).line,
            ((ofText text).location offset.toNat).column)) ∧
        ∀ line column, (words.offsetAt? line column).map UInt64.toNat =
          some ((ofText text).offsetAt line.toNat column.toNat)) := by
  have ordered := ordered_ofText text
  refine ⟨offsetAt_location ordered, ?_, ?_, ?_, ?_⟩
  · intro line inside
    rw [lineCount_ofText] at inside
    have isLine := List.getElem?_eq_getElem inside
    exact ⟨_, isLine, location_offsetAt isLine⟩
  · intro line column beyond
    exact offsetAt_of_lineCount_le beyond column
  · intro line column later laterColumn before
    rw [Prod.Lex.toLex_le_toLex] at before
    exact offsetAt_le_offsetAt ordered before
  · intro fits
    rcases WordTable.exists_holds_ofText fits with ⟨words, found, holds⟩
    exact ⟨words, found, WordTable.location?_eq holds ordered,
      WordTable.offsetAt?_eq holds ordered⟩

/-- The greatest column falls on the newline, and the text ends on an empty line. -/
theorem conversions_ofText_greatest_column :
    "é\n\nb\n".utf8ByteSize + 1 < UInt64.size ∧ ∃ words, WordTable.ofText? "é\n\nb\n" = some words ∧
      (words.offsetAt? 0 18446744073709551615).map UInt64.toNat = some 2 ∧
      (words.offsetAt? 18446744073709551615 0).map UInt64.toNat = some 6 ∧
      (words.location? 100).map (fun (line, column) => (line.toNat, column.toNat)) =
        some (3, 0) := by
  have fits : "é\n\nb\n".utf8ByteSize + 1 < UInt64.size := by decide +kernel
  rcases (conversions_ofText "é\n\nb\n").2.2.2.2 fits with ⟨words, found, location, offsetAt⟩
  refine ⟨fits, words, found, ?_, ?_, ?_⟩
  · rw [offsetAt]
    decide +kernel
  · rw [offsetAt]
    decide +kernel
  · rw [location]
    decide +kernel

end LineTable

end MarkupPath
