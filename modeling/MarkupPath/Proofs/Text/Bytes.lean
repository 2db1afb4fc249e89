import MarkupPath.Proofs.Text.Run
import MarkupPath.Text.ByteLength

/-!
# The bytes of a text

Texts are read by characters, and offsets count bytes. The bytes of a character
outside of ASCII are 128 or more, all of them. So a byte below 128 is a
character by itself, wherever it is found, and bytes that are cut in front of it
are cut between two characters of the text.
-/

namespace MarkupPath.Text

/-- The bytes of some characters in UTF-8. -/
def encode (text : List Char) : List UInt8 :=
  text.flatMap String.utf8EncodeChar

/-- The bytes of a text. -/
def bytes (text : String) : List UInt8 :=
  text.toUTF8.data.toList

theorem bytes_ofList (text : List Char) : bytes (String.ofList text) = encode text := by
  have encoded : (String.ofList text).toUTF8 = (encode text).toByteArray :=
    String.toByteArray_ofList
  rw [bytes, encoded, List.toList_data_toByteArray]

theorem bytes_eq_encode (text : String) : bytes text = encode text.toList := by
  rw [← bytes_ofList, String.ofList_toList]

@[simp]
theorem encode_nil : encode [] = [] :=
  rfl

@[simp]
theorem encode_cons (first : Char) (rest : List Char) :
    encode (first :: rest) = String.utf8EncodeChar first ++ encode rest :=
  List.flatMap_cons

@[simp]
theorem encode_append (text more : List Char) :
    encode (text ++ more) = encode text ++ encode more :=
  List.flatMap_append

theorem length_encode (text : List Char) : (encode text).length = byteLength text := by
  induction text with
  | nil => rfl
  | cons first rest ih => simp [byteLength, ih]

theorem length_bytes (text : String) : (bytes text).length = text.utf8ByteSize := by
  rw [bytes_eq_encode, length_encode, ← utf8ByteSize_ofList, String.ofList_toList]

theorem drop_encode_append (passed text : List Char) (count : Nat) :
    (encode (passed ++ text)).drop (byteLength passed + count) = (encode text).drop count := by
  rw [encode_append, ← length_encode, ← List.drop_drop, List.drop_left]

/-- A text has no two beginnings of the same length in bytes. -/
theorem append_inj_of_byteLength {front back other otherBack : List Char}
    (same : front ++ back = other ++ otherBack) (length : byteLength front = byteLength other) :
    front = other ∧ back = otherBack := by
  have nothing : ∀ more : List Char, byteLength more = 0 → more = [] := by
    intro more empty
    have short := length_le_byteLength more
    exact List.length_eq_zero_iff.mp (by omega)
  rcases List.append_eq_append_iff.mp same with ⟨more, rfl, rfl⟩ | ⟨more, rfl, rfl⟩
  · rw [byteLength_append] at length
    simp [nothing more (by omega)]
  · rw [byteLength_append] at length
    simp [nothing more (by omega)]

theorem utf8EncodeChar_of_ascii {character : Char} (ascii : character.toNat < 128) :
    String.utf8EncodeChar character = [character.toUInt8] := by
  apply String.utf8EncodeChar_eq_singleton
  rw [Char.utf8Size_eq_one_iff, UInt32.le_iff_toNat_le]
  exact Nat.le_of_lt_succ ascii

theorem encode_cons_of_ascii {first : Char} (ascii : first.toNat < 128) (rest : List Char) :
    encode (first :: rest) = first.toUInt8 :: encode rest := by
  rw [encode_cons, utf8EncodeChar_of_ascii ascii, List.singleton_append]

theorem le_of_mem_utf8EncodeChar {character : Char} (wide : ¬character.toNat < 128) {byte : UInt8}
    (member : byte ∈ String.utf8EncodeChar character) : 128 ≤ byte.toNat := by
  have code : ¬character.val.toNat ≤ 127 := fun small => wide (Nat.lt_succ_of_le small)
  unfold String.utf8EncodeChar at member
  simp only [code, if_false] at member
  split at member
  · simp only [List.mem_cons, List.not_mem_nil, or_false] at member
    rcases member with rfl | rfl <;> simp <;> omega
  · split at member
    · simp only [List.mem_cons, List.not_mem_nil, or_false] at member
      rcases member with rfl | rfl | rfl <;> simp <;> omega
    · simp only [List.mem_cons, List.not_mem_nil, or_false] at member
      rcases member with rfl | rfl | rfl | rfl <;> simp <;> omega

theorem toNat_ofUInt8 (byte : UInt8) : (Char.ofUInt8 byte).toNat = byte.toNat :=
  UInt8.toNat_toUInt32 byte

theorem toUInt8_ofUInt8 (byte : UInt8) : (Char.ofUInt8 byte).toUInt8 = byte :=
  UInt8.toUInt8_toUInt32 byte

theorem ofUInt8_toUInt8 {character : Char} (ascii : character.toNat < 128) :
    Char.ofUInt8 character.toUInt8 = character := by
  have code : character.val.toNat < 128 := ascii
  apply Char.ext
  apply UInt32.toNat_inj.mp
  have small : character.val.toUInt8.toNat = character.val.toNat := by
    rw [UInt32.toNat_toUInt8]
    omega
  exact (UInt8.toNat_toUInt32 character.val.toUInt8).trans small

/-- ASCII bytes are the bytes of the characters that they stand for. -/
theorem encode_map_ofUInt8 {ascii : List UInt8} (small : ∀ byte ∈ ascii, byte.toNat < 128) :
    encode (ascii.map Char.ofUInt8) = ascii := by
  induction ascii with
  | nil => rfl
  | cons byte rest ih =>
      have here : (Char.ofUInt8 byte).toNat < 128 := by
        rw [toNat_ofUInt8]
        exact small byte List.mem_cons_self
      rw [List.map_cons, encode_cons_of_ascii here, toUInt8_ofUInt8,
        ih fun other member => small other (List.mem_cons_of_mem _ member)]

theorem map_ofUInt8_encode {text : List Char}
    (ascii : ∀ character ∈ text, character.toNat < 128) :
    (encode text).map Char.ofUInt8 = text := by
  induction text with
  | nil => rfl
  | cons first rest ih =>
      have here := ascii first List.mem_cons_self
      rw [encode_cons_of_ascii here, List.map_cons, ofUInt8_toUInt8 here,
        ih fun other member => ascii other (List.mem_cons_of_mem _ member)]

theorem exists_mem_of_encode_eq_cons {text : List Char} {byte : UInt8} {rest : List UInt8}
    (encoded : encode text = byte :: rest) :
    ∃ first after, text = first :: after ∧ byte ∈ String.utf8EncodeChar first := by
  cases text with
  | nil => exact nomatch encoded
  | cons first after =>
      refine ⟨first, after, rfl, ?_⟩
      cases spelled : String.utf8EncodeChar first with
      | nil => exact absurd spelled String.utf8EncodeChar_ne_nil
      | cons lead more =>
          rw [encode_cons, spelled, List.cons_append, List.cons.injEq] at encoded
          rw [encoded.1]
          exact List.mem_cons_self

/-- A first byte below 128 is the first character. -/
theorem exists_of_encode_eq_cons {text : List Char} {byte : UInt8} {rest : List UInt8}
    (encoded : encode text = byte :: rest) (ascii : byte.toNat < 128) :
    ∃ after, text = Char.ofUInt8 byte :: after ∧ encode after = rest := by
  rcases exists_mem_of_encode_eq_cons encoded with ⟨first, after, rfl, member⟩
  have narrow : first.toNat < 128 := by
    by_cases narrow : first.toNat < 128
    · exact narrow
    · have large := le_of_mem_utf8EncodeChar narrow member
      omega
  rw [encode_cons_of_ascii narrow, List.cons.injEq] at encoded
  rcases encoded with ⟨rfl, rfl⟩
  exact ⟨after, by rw [ofUInt8_toUInt8 narrow], rfl⟩

theorem exists_of_encode_eq_append {text : List Char} {ascii back : List UInt8}
    (encoded : encode text = ascii ++ back) (small : ∀ byte ∈ ascii, byte.toNat < 128) :
    ∃ after, text = ascii.map Char.ofUInt8 ++ after ∧ encode after = back := by
  induction ascii generalizing text with
  | nil => exact ⟨text, rfl, encoded⟩
  | cons byte ascii ih =>
      rcases exists_of_encode_eq_cons encoded (small byte List.mem_cons_self) with
        ⟨rest, rfl, further⟩
      rcases ih further fun other member => small other (List.mem_cons_of_mem _ member) with
        ⟨after, rfl, encodedAfter⟩
      exact ⟨after, rfl, encodedAfter⟩

/-- Wherever a byte below 128 is found, the text goes on there with its character. -/
theorem exists_of_drop_encode {text : List Char} {start : Nat} {byte : UInt8} {rest : List UInt8}
    (found : (encode text).drop start = byte :: rest) (ascii : byte.toNat < 128) :
    ∃ before after, text = before ++ Char.ofUInt8 byte :: after ∧ byteLength before = start ∧
      encode after = rest := by
  induction text generalizing start with
  | nil => simp at found
  | cons first text ih =>
      by_cases atFirst : start = 0
      · subst atFirst
        rcases exists_of_encode_eq_cons found ascii with ⟨after, same, encodedAfter⟩
        exact ⟨[], after, same, rfl, encodedAfter⟩
      · have size := String.length_utf8EncodeChar first
        rw [encode_cons, List.drop_append] at found
        -- No byte of a character besides its first is below 128.
        have passed : (String.utf8EncodeChar first).drop start = [] := by
          cases left : (String.utf8EncodeChar first).drop start with
          | nil => rfl
          | cons other more =>
              rw [left, List.cons_append, List.cons.injEq] at found
              have member : other ∈ String.utf8EncodeChar first :=
                List.mem_of_mem_drop (left ▸ List.mem_cons_self)
              have wide : ¬first.toNat < 128 := by
                intro narrow
                rw [utf8EncodeChar_of_ascii narrow, List.drop_eq_nil_of_le (by simp; omega)] at left
                exact nomatch left
              have large := le_of_mem_utf8EncodeChar wide member
              rw [found.1] at large
              omega
        rw [passed, List.nil_append, size] at found
        rw [List.drop_eq_nil_iff, size] at passed
        rcases ih found with ⟨before, after, rfl, length, encodedAfter⟩
        exact ⟨first :: before, after, rfl, by rw [byteLength]; omega, encodedAfter⟩

theorem mem_encode_iff {text : List Char} {byte : UInt8} (ascii : byte.toNat < 128) :
    byte ∈ encode text ↔ Char.ofUInt8 byte ∈ text := by
  constructor
  · intro member
    rcases List.append_of_mem member with ⟨front, back, split⟩
    have found : (encode text).drop front.length = byte :: back := by
      rw [split, List.drop_left]
    rcases exists_of_drop_encode found ascii with ⟨before, after, rfl, -, -⟩
    simp
  · intro member
    rw [encode, List.mem_flatMap]
    refine ⟨Char.ofUInt8 byte, member, ?_⟩
    rw [utf8EncodeChar_of_ascii (by rwa [toNat_ofUInt8]), toUInt8_ofUInt8]
    exact List.mem_singleton_self byte

/--
A class of characters as a class of bytes. Bytes of 128 and more are in it like characters that are
not ASCII.
-/
def byteClass (inClass : Char → Bool) (byte : UInt8) : Bool :=
  inClass (Char.ofUInt8 byte)

/-- The class does not tell apart what is not ASCII. -/
def IsCoarse (inClass : Char → Bool) : Prop :=
  ∀ one other : Char, ¬one.toNat < 128 → ¬other.toNat < 128 → inClass one = inClass other

section Classes

variable {inClass : Char → Bool}

theorem isCoarse_of_ascii (ascii : ∀ character, inClass character = true → character.toNat < 128) :
    IsCoarse inClass := by
  intro one other wide otherWide
  have notOne : inClass one = false := Bool.eq_false_iff.mpr fun inside => wide (ascii one inside)
  have notOther : inClass other = false :=
    Bool.eq_false_iff.mpr fun inside => otherWide (ascii other inside)
  rw [notOne, notOther]

variable (coarse : IsCoarse inClass)

include coarse

/-- Each byte of a character tells the class of the character. -/
theorem byteClass_of_mem {character : Char} {byte : UInt8}
    (member : byte ∈ String.utf8EncodeChar character) :
    byteClass inClass byte = inClass character := by
  rw [byteClass]
  by_cases narrow : character.toNat < 128
  · rw [utf8EncodeChar_of_ascii narrow, List.mem_singleton] at member
    rw [member, ofUInt8_toUInt8 narrow]
  · have large := le_of_mem_utf8EncodeChar narrow member
    apply coarse _ _ _ narrow
    rw [toNat_ofUInt8]
    omega

theorem byteClass_of_mem_encode {text : List Char}
    (inside : ∀ character ∈ text, inClass character = true) :
    ∀ byte ∈ encode text, byteClass inClass byte = true := by
  intro byte member
  rcases List.mem_flatMap.mp member with ⟨character, inText, inCharacter⟩
  rw [byteClass_of_mem coarse inCharacter]
  exact inside character inText

theorem byteClass_of_head?_encode {text : List Char}
    (stops : ∀ character, text.head? = some character → inClass character = false) :
    ∀ byte, (encode text).head? = some byte → byteClass inClass byte = false := by
  intro byte isHead
  rcases List.head?_eq_some_iff.mp isHead with ⟨more, encoded⟩
  rcases exists_mem_of_encode_eq_cons encoded with ⟨first, after, rfl, inFirst⟩
  rw [byteClass_of_mem coarse inFirst]
  exact stops first rfl

end Classes

end MarkupPath.Text

namespace MarkupPath

open Text

/-- The longest run of a class in the characters is the longest one in the bytes. -/
theorem LongestRun.encode {inClass : Char → Bool} {run rest : List Char}
    (longest : LongestRun inClass run rest) (coarse : IsCoarse inClass) :
    LongestRun (byteClass inClass) (Text.encode run) (Text.encode rest) :=
  ⟨byteClass_of_mem_encode coarse longest.inside, byteClass_of_head?_encode coarse longest.stops⟩

end MarkupPath
