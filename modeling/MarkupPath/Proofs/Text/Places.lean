import MarkupPath.Proofs.Text.Bytes
import MarkupPath.Proofs.Text.Slice

/-!
# Places in the bytes of a text

A reader that goes by bytes knows where it is by a place, and tests and skips the
bytes there. `IsAhead` says which characters such a place is in front of. As long
as the tests do not tell apart what is not ASCII, they come out as they do for the
characters ahead, and skipping leads from a place between characters to another.
-/

namespace MarkupPath

namespace Text

def seen (bytes : List UInt8) (inClass : Char → Bool) (place : Nat) : Bool :=
  bytes[place]?.any (byteClass inClass)

/-- The place behind all the bytes of the class that follow one another at a place. -/
def skip (bytes : List UInt8) (inClass : Char → Bool) (place : Nat) : Nat :=
  place + ((bytes.drop place).takeWhile (byteClass inClass)).length

/-- The next place with the mark, be it this one or a later one. -/
def nextPlace? (bytes : List UInt8) (mark : Char) (place : Nat) : Option Nat :=
  if skip bytes (· != mark) place < bytes.length then some (skip bytes (· != mark) place) else none

theorem le_skip (bytes : List UInt8) (inClass : Char → Bool) (place : Nat) :
    place ≤ skip bytes inClass place :=
  Nat.le_add_right _ _

theorem lt_skip {bytes : List UInt8} {inClass : Char → Bool} {place : Nat}
    (here : seen bytes inClass place = true) : place < skip bytes inClass place := by
  rcases (Option.any_eq_true _ _).mp here with ⟨byte, found, inside⟩
  have split : bytes.drop place = byte :: bytes.drop (place + 1) := by
    rcases List.getElem?_eq_some_iff.mp found with ⟨bound, rfl⟩
    exact List.drop_eq_getElem_cons bound
  rw [skip, split, List.takeWhile_cons_of_pos inside, List.length_cons]
  omega

theorem bounds_of_nextPlace? {bytes : List UInt8} {mark : Char} {place next : Nat}
    (found : nextPlace? bytes mark place = some next) : place ≤ next ∧ next < bytes.length := by
  unfold nextPlace? at found
  split at found
  next inside =>
    rcases Option.some.inj found with rfl
    exact ⟨le_skip bytes _ place, inside⟩
  next => exact nomatch found

theorem isCoarse_ne {mark : Char} (ascii : mark.toNat < 128) : IsCoarse (· != mark) := by
  have other : ∀ character : Char, ¬character.toNat < 128 → (character != mark) = true := by
    intro character wide
    rw [bne_iff_ne]
    rintro rfl
    exact wide ascii
  intro one another wide anotherWide
  exact (other one wide).trans (other another anotherWide).symm

theorem isCoarse_eq {mark : Char} (ascii : mark.toNat < 128) : IsCoarse (· == mark) := by
  apply isCoarse_of_ascii
  intro character same
  rw [beq_iff_eq.mp same]
  exact ascii

/-- The text goes on with `ahead` at the place. -/
def IsAhead (text : List Char) (place : Nat) (ahead : List Char) : Prop :=
  ∃ passed, text = passed ++ ahead ∧ byteLength passed = place

theorem isAhead_zero (text : List Char) : IsAhead text 0 text :=
  ⟨[], rfl, rfl⟩

namespace IsAhead

variable {text ahead : List Char} {place : Nat}

theorem advance {piece : List Char} (here : IsAhead text place (piece ++ ahead)) :
    IsAhead text (place + byteLength piece) ahead := by
  rcases here with ⟨passed, rfl, rfl⟩
  exact ⟨passed ++ piece, (List.append_assoc _ _ _).symm, byteLength_append passed piece⟩

theorem advance_cons {first : Char} (here : IsAhead text place (first :: ahead)) :
    IsAhead text (place + first.utf8Size) ahead := by
  have split : IsAhead text place ([first] ++ ahead) := here
  exact split.advance

/-- Behind a character that is ASCII the text goes on at the next byte. -/
theorem advance_ascii {first : Char} (ascii : first.toNat < 128)
    (here : IsAhead text place (first :: ahead)) : IsAhead text (place + 1) ahead := by
  have width : first.utf8Size = 1 := by
    rw [← String.length_utf8EncodeChar, utf8EncodeChar_of_ascii ascii, List.length_singleton]
  have behind := here.advance_cons
  rwa [width] at behind

theorem drop_encode (here : IsAhead text place ahead) :
    (encode text).drop place = encode ahead := by
  rcases here with ⟨passed, rfl, rfl⟩
  exact drop_encode_append passed ahead 0

theorem length_encode (here : IsAhead text place ahead) :
    (encode text).length = place + byteLength ahead := by
  rcases here with ⟨passed, rfl, rfl⟩
  rw [Text.length_encode, byteLength_append]

theorem getElem?_encode (here : IsAhead text place ahead) :
    (encode text)[place]? = (encode ahead).head? := by
  rw [← here.drop_encode, List.head?_drop]

theorem getElem?_encode_cons {first : Char} (here : IsAhead text place (first :: ahead))
    (ascii : first.toNat < 128) : (encode text)[place]? = some first.toUInt8 := by
  rw [here.getElem?_encode, encode_cons_of_ascii ascii, List.head?_cons]

variable {inClass : Char → Bool}

/-- Each byte of a character is in the classes that the character is in. -/
theorem seen_in_char {first : Char} {index : Nat} (coarse : IsCoarse inClass)
    (here : IsAhead text place (first :: ahead)) (inside : index < first.utf8Size) :
    seen (encode text) inClass (place + index) = inClass first := by
  have width := String.length_utf8EncodeChar first
  have found : (encode text)[place + index]? = (String.utf8EncodeChar first)[index]? := by
    rw [← List.getElem?_drop, here.drop_encode, encode_cons,
      List.getElem?_append_left (by rwa [width])]
  rw [seen, found, List.getElem?_eq_getElem (by rwa [width])]
  exact byteClass_of_mem coarse (List.getElem_mem _)

theorem seen_eq (coarse : IsCoarse inClass) (here : IsAhead text place ahead) :
    seen (encode text) inClass place = ahead.head?.any inClass := by
  cases ahead with
  | nil =>
      rw [seen, here.getElem?_encode]
      rfl
  | cons first rest => exact seen_in_char coarse here first.utf8Size_pos

theorem skip_eq (coarse : IsCoarse inClass) (here : IsAhead text place ahead) :
    skip (encode text) inClass place = place + byteLength (ahead.takeWhile inClass) := by
  have longest := (longestRun_takeWhile inClass ahead).encode coarse
  have whole := List.takeWhile_append_dropWhile (p := inClass) (l := ahead)
  rw [skip, here.drop_encode, ← Text.length_encode]
  nth_rewrite 1 [← whole]
  rw [encode_append, longest.takeWhile_append]

/-- All that is skipped is passed, and nothing else. -/
theorem skip_of_longestRun {run : List Char} (coarse : IsCoarse inClass)
    (longest : LongestRun inClass run ahead) (here : IsAhead text place (run ++ ahead)) :
    skip (encode text) inClass place = place + byteLength run := by
  rw [here.skip_eq coarse, longest.takeWhile_append]

theorem nextPlace?_of_not_mem {mark : Char} (ascii : mark.toNat < 128) (absent : mark ∉ ahead)
    (here : IsAhead text place ahead) : nextPlace? (encode text) mark place = none := by
  have longest : LongestRun (· != mark) ahead [] := by
    refine ⟨?_, fun character isHead => nomatch isHead⟩
    intro character member
    rw [bne_iff_ne]
    rintro rfl
    exact absent member
  have toEnd := here
  rw [← List.append_nil ahead] at toEnd
  rw [nextPlace?, toEnd.skip_of_longestRun (isCoarse_ne ascii) longest, here.length_encode,
    if_neg (Nat.lt_irrefl _)]

theorem nextPlace?_of_mem {mark : Char} {front back : List Char} (ascii : mark.toNat < 128)
    (absent : mark ∉ front) (here : IsAhead text place (front ++ mark :: back)) :
    nextPlace? (encode text) mark place = some (place + byteLength front) := by
  have longest := longestRun_of_not_mem absent back
  have width := mark.utf8Size_pos
  rw [nextPlace?, here.skip_of_longestRun (isCoarse_ne ascii) longest, here.length_encode,
    if_pos]
  rw [byteLength_append, byteLength]
  omega

end IsAhead

/-- Skipping can begin anywhere among the bytes of the class. -/
theorem skip_of_between {bytes : List UInt8} {inClass : Char → Bool} {place later : Nat}
    (ordered : place ≤ later) (inside : later ≤ bytes.length)
    (between : ∀ index, place ≤ index → index < later → seen bytes inClass index = true) :
    skip bytes inClass place = skip bytes inClass later := by
  have split := List.take_append_drop (later - place) (bytes.drop place)
  rw [List.drop_drop, Nat.add_sub_of_le ordered] at split
  have length : ((bytes.drop place).take (later - place)).length = later - place := by
    apply List.length_take_of_le
    rw [List.length_drop]
    omega
  have passed : ∀ byte ∈ (bytes.drop place).take (later - place),
      byteClass inClass byte = true := by
    intro byte member
    rcases List.mem_iff_getElem?.mp member with ⟨index, found⟩
    have index_lt := (List.getElem?_eq_some_iff.mp found).1
    rw [length] at index_lt
    rw [List.getElem?_take_of_lt index_lt, List.getElem?_drop] at found
    have here := between (place + index) (Nat.le_add_right _ _) (by omega)
    rwa [seen, found] at here
  rw [skip, skip, ← split, List.takeWhile_append_of_pos passed, List.length_append, length]
  omega

end Text

namespace Slice

open Text

variable {whole : List Char}

theorem exists_cut_of_isAhead (slice : Slice whole) {first : Nat} {piece ahead : List Char}
    (here : IsAhead slice.content first (piece ++ ahead)) :
    ∃ made, slice.cut first (first + byteLength piece) = .ok made ∧ made.content = piece := by
  rcases here with ⟨passed, split, rfl⟩
  have made := exists_cut split
  rwa [byteLength_append] at made

theorem exists_cutFrom_of_isAhead (slice : Slice whole) {first : Nat} {ahead : List Char}
    (here : IsAhead slice.content first ahead) :
    ∃ made, slice.cutFrom first = .ok made ∧ made.content = ahead := by
  rcases here with ⟨passed, split, rfl⟩
  exact exists_cutFrom split

end Slice

end MarkupPath
