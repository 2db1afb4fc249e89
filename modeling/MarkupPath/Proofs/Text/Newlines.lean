import Mathlib.Data.List.Induction
import MarkupPath.Proofs.Text.Bytes
import MarkupPath.Text.Position

/-!
# Newlines

The line and the column of a place depend on the newlines before it alone, and a
newline is one byte wherever it stands. So a position can be told from the bytes
before it: count the newlines among them, and measure from behind the last one.
-/

namespace MarkupPath

namespace Text

def newline : UInt8 :=
  '\n'.toUInt8

/-- Where the newlines stand among some bytes, in ascending order. -/
def newlines (bytes : List UInt8) : List Nat :=
  bytes.idxsOf newline

/-- The place behind the last newline, or the beginning if there is no newline. -/
def lastLineStart (bytes : List UInt8) : Nat :=
  match (newlines bytes).getLast? with
  | some place => place + 1
  | none => 0

theorem newlines_append (bytes more : List UInt8) :
    newlines (bytes ++ more) = newlines bytes ++ (newlines more).map (· + bytes.length) := by
  rw [newlines, List.idxsOf, List.findIdxs_append, List.findIdxs_start (s := 0 + bytes.length),
    Nat.zero_add]
  rfl

theorem newlines_cons (byte : UInt8) (rest : List UInt8) :
    newlines (byte :: rest) =
      if byte = newline then 0 :: (newlines rest).map (· + 1) else (newlines rest).map (· + 1) := by
  have split := newlines_append [byte] rest
  rw [List.singleton_append, List.length_singleton] at split
  rw [split]
  by_cases isNewline : byte = newline <;> simp [newlines, List.idxsOf, isNewline]

theorem newlines_eq_nil_iff {bytes : List UInt8} : newlines bytes = [] ↔ newline ∉ bytes := by
  rw [newlines, List.idxsOf, List.findIdxs_eq_nil_iff]
  simp only [beq_eq_false_iff_ne]
  constructor
  · exact fun other member => other newline member rfl
  · rintro absent byte member rfl
    exact absent member

theorem lt_length_of_mem_newlines {bytes : List UInt8} {place : Nat}
    (member : place ∈ newlines bytes) : place < bytes.length :=
  List.lt_add_of_mem_findIdxs place member

theorem length_newlines (bytes : List UInt8) : (newlines bytes).length = bytes.count newline :=
  List.length_findIdxs

theorem lastLineStart_append_of_not_mem {more : List UInt8} (absent : newline ∉ more)
    (bytes : List UInt8) : lastLineStart (bytes ++ more) = lastLineStart bytes := by
  unfold lastLineStart
  rw [newlines_append, newlines_eq_nil_iff.mpr absent, List.map_nil, List.append_nil]

theorem lastLineStart_append_of_getLast? {more : List UInt8} {place : Nat}
    (isLast : (newlines more).getLast? = some place) (bytes : List UInt8) :
    lastLineStart (bytes ++ more) = place + bytes.length + 1 := by
  unfold lastLineStart
  rw [newlines_append, List.getLast?_append, List.getLast?_map, isLast]
  rfl

theorem lastLineStart_le_length (bytes : List UInt8) : lastLineStart bytes ≤ bytes.length := by
  unfold lastLineStart
  split
  next place isLast => exact lt_length_of_mem_newlines (List.mem_of_getLast? isLast)
  next => exact Nat.zero_le _

/-- No byte of a character is a newline unless the character is one. -/
theorem newline_not_mem_of_ne {character : Char} (other : character ≠ '\n') :
    newline ∉ String.utf8EncodeChar character := by
  intro member
  have inText : newline ∈ encode [character] := by simpa [encode] using member
  rw [mem_encode_iff (by decide), List.mem_singleton] at inText
  exact other (inText.symm.trans (by decide))

end Text

open Text

namespace Position

/-- The position behind some bytes, told from the newlines among them. -/
def behind (bytes : List UInt8) : Position where
  offset := bytes.length
  line := bytes.count newline
  column := bytes.length - lastLineStart bytes

theorem behind_append_of_not_mem {more : List UInt8} (absent : newline ∉ more)
    (bytes : List UInt8) :
    behind (bytes ++ more) =
      ⟨(behind bytes).offset + more.length, (behind bytes).line,
        (behind bytes).column + more.length⟩ := by
  have inside := lastLineStart_le_length bytes
  simp only [behind, List.length_append, List.count_append, List.count_eq_zero.mpr absent,
    lastLineStart_append_of_not_mem absent, Nat.add_zero, mk.injEq, true_and]
  omega

theorem behind_concat_newline (bytes : List UInt8) :
    behind (bytes ++ [newline]) = ⟨(behind bytes).offset + 1, (behind bytes).line + 1, 0⟩ := by
  have start : lastLineStart (bytes ++ [newline]) = bytes.length + 1 := by
    have isLast : (newlines [newline]).getLast? = some 0 := by decide
    rw [lastLineStart_append_of_getLast? isLast, Nat.zero_add]
  simp [behind, start]

theorem behind_append_encode (bytes : List UInt8) (character : Char) :
    behind (bytes ++ String.utf8EncodeChar character) = (behind bytes).advance character := by
  by_cases isNewline : character = '\n'
  · subst isNewline
    rw [utf8EncodeChar_of_ascii (by decide), advance, if_pos rfl]
    exact behind_concat_newline bytes
  · rw [behind_append_of_not_mem (newline_not_mem_of_ne isNewline), advance, if_neg isNewline,
      String.length_utf8EncodeChar]

/-- The position that is reached character by character is told by the bytes that were passed. -/
theorem advanceOver_origin (passed : List Char) :
    origin.advanceOver passed = behind (encode passed) := by
  induction passed using List.reverseRecOn with
  | nil => rfl
  | append_singleton passed character ih =>
      rw [advanceOver_append, ih, encode_append, encode_cons, encode_nil, List.append_nil,
        behind_append_encode]
      rfl

end Position

end MarkupPath
