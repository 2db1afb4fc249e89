import MarkupPath.Proofs.Markup.Grammar
import MarkupPath.Proofs.Text.Bytes

/-!
# The bytes of a tag

All that makes a tag is ASCII, so the grammar of tags can be stated for the bytes
of a text as well as for its characters. A tag in the bytes begins between two
characters and is the encoding of a tag in the characters.
-/

namespace MarkupPath

open Markup Text

/-- The pieces of a tag in bytes. -/
structure TagBytes where
  /-- The white space right after `<`. -/
  indent : List UInt8
  /-- The slash of a closing tag with the white space after it. -/
  slash : Option (List UInt8)
  name : List UInt8
  /-- What stands between the name and `>`. -/
  region : List UInt8
deriving DecidableEq, Repr

namespace TagBytes

def beforeName (tag : TagBytes) : List UInt8 :=
  match tag.slash with
  | some spaces => tag.indent ++ '/'.toUInt8 :: spaces
  | none => tag.indent

def toList (tag : TagBytes) : List UInt8 :=
  '<'.toUInt8 :: (tag.beforeName ++ (tag.name ++ (tag.region ++ ['>'.toUInt8])))

/--
A leading slash makes a closing tag, and otherwise a slash right before `>` closes the tag itself.
-/
def kind (tag : TagBytes) : TagKind :=
  if tag.slash.isSome then .closing
  else if tag.region.getLast? = some '/'.toUInt8 then .selfClosing
  else .opening

/-- The pieces are those of a tag of the grammar. -/
structure WellFormed (tag : TagBytes) : Prop where
  indent_space : ∀ byte ∈ tag.indent, isSpace (Char.ofUInt8 byte) = true
  slash_space : ∀ spaces, tag.slash = some spaces →
    ∀ byte ∈ spaces, isSpace (Char.ofUInt8 byte) = true
  isName : IsName (tag.name.map Char.ofUInt8)
  /-- The name is as long as it can be. -/
  apart : ∀ byte, tag.region.head? = some byte → isNameChar (Char.ofUInt8 byte) = false
  /-- The tag ends at the first `>` there is after its name. -/
  noEnd : '>'.toUInt8 ∉ tag.region

/-- The bytes go on with the tag at a place. -/
structure IsAt (bytes : List UInt8) (start : Nat) (tag : TagBytes) : Prop where
  wellFormed : tag.WellFormed
  isPrefix : tag.toList <+: bytes.drop start

end TagBytes

/-- A tag begins at a place of the bytes. -/
def StartsTag (bytes : List UInt8) (start : Nat) : Prop :=
  ∃ tag, TagBytes.IsAt bytes start tag

namespace Lexeme

/-- The pieces of a tag as bytes. -/
def encode (lexeme : Lexeme) : TagBytes where
  indent := Text.encode lexeme.indent
  slash := lexeme.slash.map Text.encode
  name := Text.encode lexeme.name
  region := Text.encode lexeme.region

end Lexeme

section Classes

variable {character : Char}

theorem ascii_of_isNameChar (inName : isNameChar character = true) : character.toNat < 128 := by
  have code := toNat_of_isNameChar inName
  omega

theorem ascii_of_isSpace (space : isSpace character = true) : character.toNat < 128 := by
  simp only [isSpace, Bool.or_eq_true, decide_eq_true_eq] at space
  rcases space with ((((rfl | rfl) | rfl) | rfl) | rfl) | rfl <;> decide

theorem isCoarse_isNameChar : IsCoarse isNameChar :=
  isCoarse_of_ascii fun _ => ascii_of_isNameChar

theorem isCoarse_isNameStart : IsCoarse isNameStart :=
  isCoarse_of_ascii fun _ start => ascii_of_isNameChar (isNameChar_of_isNameStart start)

theorem isCoarse_isSpace : IsCoarse isSpace :=
  isCoarse_of_ascii fun _ => ascii_of_isSpace

theorem ascii_of_forall_isSpace {spaces : List UInt8}
    (space : ∀ byte ∈ spaces, isSpace (Char.ofUInt8 byte) = true) :
    ∀ byte ∈ spaces, byte.toNat < 128 := by
  intro byte member
  rw [← toNat_ofUInt8]
  exact ascii_of_isSpace (space byte member)

end Classes

namespace TagBytes

variable {tag : TagBytes}

theorem WellFormed.ascii_name (wellFormed : tag.WellFormed) :
    ∀ byte ∈ tag.name, byte.toNat < 128 := by
  intro byte member
  rw [← toNat_ofUInt8]
  apply ascii_of_isNameChar
  exact wellFormed.isName.forall_isNameChar _ (List.mem_map_of_mem member)

theorem WellFormed.ascii_beforeName (wellFormed : tag.WellFormed) :
    ∀ byte ∈ tag.beforeName, byte.toNat < 128 := by
  have indent := ascii_of_forall_isSpace wellFormed.indent_space
  intro byte member
  unfold beforeName at member
  split at member
  next spaces slash =>
    rcases List.mem_append.mp member with member | member
    · exact indent byte member
    · rcases List.mem_cons.mp member with rfl | member
      · decide
      · exact ascii_of_forall_isSpace (wellFormed.slash_space spaces slash) byte member
  next => exact indent byte member

theorem WellFormed.end_not_mem (wellFormed : tag.WellFormed) :
    '>'.toUInt8 ∉ '<'.toUInt8 :: (tag.beforeName ++ (tag.name ++ tag.region)) := by
  have notInSpaces : ∀ spaces : List UInt8,
      (∀ byte ∈ spaces, isSpace (Char.ofUInt8 byte) = true) → '>'.toUInt8 ∉ spaces :=
    fun spaces space member => absurd (space _ member) (by decide)
  have notInName : '>'.toUInt8 ∉ tag.name := by
    intro member
    have inName := List.mem_map_of_mem (f := Char.ofUInt8) member
    exact wellFormed.isName.not_mem (by decide) inName
  have notBefore : '>'.toUInt8 ∉ tag.beforeName := by
    unfold beforeName
    split
    next spaces slash =>
      have notBehind := notInSpaces spaces (wellFormed.slash_space spaces slash)
      have other : '>'.toUInt8 ≠ '/'.toUInt8 := by decide
      simp only [List.mem_append, List.mem_cons, other, notBehind, or_self, or_false]
      exact notInSpaces tag.indent wellFormed.indent_space
    next => exact notInSpaces tag.indent wellFormed.indent_space
  have other : '>'.toUInt8 ≠ '<'.toUInt8 := by decide
  simp only [List.mem_cons, List.mem_append, other, notBefore, notInName, wellFormed.noEnd,
    or_self, not_false_iff]

theorem map_beforeName (tag : TagBytes) :
    tag.beforeName.map Char.ofUInt8 =
      Lexeme.beforeName (tag.indent.map Char.ofUInt8) (tag.slash.map (List.map Char.ofUInt8)) := by
  unfold beforeName
  split
  next spaces slash =>
    rw [slash, Option.map_some, Lexeme.beforeName, List.map_append, List.map_cons,
      ofUInt8_toUInt8 (by decide)]
  next slash => rw [slash, Option.map_none, Lexeme.beforeName]

end TagBytes

namespace Lexeme

theorem encode_toList (lexeme : Lexeme) : lexeme.encode.toList = Text.encode lexeme.toList := by
  have mark : ∀ character : Char, character.toNat < 128 →
      String.utf8EncodeChar character = [character.toUInt8] := fun _ => utf8EncodeChar_of_ascii
  rw [toList_eq]
  rcases lexeme with ⟨indent, slash, name, region⟩
  cases slash <;> simp [encode, TagBytes.toList, TagBytes.beforeName, beforeName, mark]

theorem wellFormed_encode {lexeme : Lexeme} (wellFormed : lexeme.WellFormed) :
    lexeme.encode.WellFormed := by
  refine ⟨byteClass_of_mem_encode isCoarse_isSpace wellFormed.indent_space, ?_, ?_,
    byteClass_of_head?_encode isCoarse_isNameChar wellFormed.apart, ?_⟩
  · intro encoded slash
    rcases Option.map_eq_some_iff.mp slash with ⟨text, isSlash, rfl⟩
    exact byteClass_of_mem_encode isCoarse_isSpace (wellFormed.slash_space text isSlash)
  · have ascii := fun character member =>
      ascii_of_isNameChar (wellFormed.isName.forall_isNameChar character member)
    rw [encode, map_ofUInt8_encode ascii]
    exact wellFormed.isName
  · intro member
    rw [encode, mem_encode_iff (by decide), ofUInt8_toUInt8 (by decide)] at member
    exact wellFormed.noEnd member

end Lexeme

namespace TagBytes

/-- The tag with these bytes, if its region is the bytes of some characters. -/
def decode (tag : TagBytes) (region : List Char) : Lexeme where
  indent := tag.indent.map Char.ofUInt8
  slash := tag.slash.map (List.map Char.ofUInt8)
  name := tag.name.map Char.ofUInt8
  region := region

theorem encode_decode {tag : TagBytes} {region : List Char} (wellFormed : tag.WellFormed)
    (encoded : tag.region = Text.encode region) : (tag.decode region).encode = tag := by
  have indent := encode_map_ofUInt8 (ascii_of_forall_isSpace wellFormed.indent_space)
  have name := encode_map_ofUInt8 wellFormed.ascii_name
  have slash : (tag.slash.map (List.map Char.ofUInt8)).map Text.encode = tag.slash := by
    cases isSlash : tag.slash with
    | none => rfl
    | some spaces =>
        have space := wellFormed.slash_space spaces isSlash
        simp [encode_map_ofUInt8 (ascii_of_forall_isSpace space)]
  rcases tag with ⟨tagIndent, tagSlash, tagName, tagRegion⟩
  simp only [Lexeme.encode, decode, mk.injEq]
  exact ⟨indent, slash, name, encoded.symm⟩

theorem wellFormed_decode {tag : TagBytes} {region : List Char} (wellFormed : tag.WellFormed)
    (encoded : tag.region = Text.encode region) : (tag.decode region).WellFormed := by
  refine ⟨?_, ?_, wellFormed.isName, ?_, ?_⟩
  · intro character member
    rcases List.mem_map.mp member with ⟨byte, inIndent, rfl⟩
    exact wellFormed.indent_space byte inIndent
  · intro spaces slash character member
    rcases Option.map_eq_some_iff.mp slash with ⟨encodedSpaces, isSlash, rfl⟩
    rcases List.mem_map.mp member with ⟨byte, inSpaces, rfl⟩
    exact wellFormed.slash_space encodedSpaces isSlash byte inSpaces
  · intro mark isHead
    rcases List.head?_eq_some_iff.mp isHead with ⟨rest, rfl⟩
    apply Bool.eq_false_iff.mpr
    intro inName
    have ascii := ascii_of_isNameChar inName
    have apart := wellFormed.apart mark.toUInt8
    rw [encoded, encode_cons_of_ascii ascii, ofUInt8_toUInt8 ascii, inName] at apart
    exact nomatch apart rfl
  · intro member
    apply wellFormed.noEnd
    rw [encoded, mem_encode_iff (by decide), ofUInt8_toUInt8 (by decide)]
    exact member

/-- A tag in the bytes of a text is a tag of the text, and begins between two characters. -/
theorem isAt_encode_iff {text : List Char} {start : Nat} {tag : TagBytes} :
    tag.IsAt (Text.encode text) start ↔
      ∃ before body lexeme after, text = before ++ '<' :: body ∧ byteLength before = start ∧
        Lexeme.read body = .tag lexeme after ∧ tag = lexeme.encode := by
  constructor
  · rintro ⟨wellFormed, back, split⟩
    rw [toList, List.cons_append] at split
    rcases exists_of_drop_encode split.symm (by decide) with ⟨before, body, rfl, length, inside⟩
    rw [List.append_assoc, List.append_assoc, List.append_assoc] at inside
    rcases exists_of_encode_eq_append inside wellFormed.ascii_beforeName with
      ⟨named, rfl, encodedNamed⟩
    rcases exists_of_encode_eq_append encodedNamed wellFormed.ascii_name with
      ⟨behind, rfl, encodedBehind⟩
    -- The first `>` byte behind the name is the first `>` there.
    have member : '>' ∈ behind := by
      have inBytes : '>'.toUInt8 ∈ Text.encode behind := by simp [encodedBehind]
      rwa [mem_encode_iff (by decide), ofUInt8_toUInt8 (by decide)] at inBytes
    rcases List.eq_append_cons_of_mem member with ⟨region, after, rfl, noEnd⟩
    have noEndByte : '>'.toUInt8 ∉ Text.encode region := by
      rwa [mem_encode_iff (by decide), ofUInt8_toUInt8 (by decide)]
    rw [encode_append, encode_cons_of_ascii (by decide), List.singleton_append] at encodedBehind
    have encoded := (front_eq_of_not_mem noEndByte wellFormed.noEnd encodedBehind).symm
    refine ⟨before, _, tag.decode region, after, rfl, length, ?_,
      (encode_decode wellFormed encoded).symm⟩
    rw [Lexeme.read_eq_tag_iff]
    refine ⟨wellFormed_decode wellFormed encoded, ?_⟩
    rw [Lexeme.toList_eq, map_beforeName]
    simp [decode]
  · rintro ⟨before, body, lexeme, after, rfl, rfl, read, rfl⟩
    rcases Lexeme.read_eq_tag_iff.mp read with ⟨wellFormed, split⟩
    refine ⟨Lexeme.wellFormed_encode wellFormed, Text.encode after, ?_⟩
    have behind := drop_encode_append before ('<' :: body) 0
    rw [Nat.add_zero, List.drop_zero] at behind
    rw [behind, split, encode_append, Lexeme.encode_toList]

/-- At a place of a text, there is one way at most to read a tag. -/
theorem IsAt.unique {text : List Char} {start : Nat} {tag other : TagBytes}
    (here : tag.IsAt (Text.encode text) start) (there : other.IsAt (Text.encode text) start) :
    tag = other := by
  rcases isAt_encode_iff.mp here with ⟨before, body, lexeme, after, split, length, read, rfl⟩
  rcases isAt_encode_iff.mp there with
    ⟨otherBefore, otherBody, otherLexeme, otherAfter, otherSplit, otherLength, otherRead, rfl⟩
  have same := append_inj_of_byteLength (split.symm.trans otherSplit)
    (length.trans otherLength.symm)
  have sameBody := (List.cons.inj same.2).2
  rw [sameBody, otherRead, Lexeme.Reading.tag.injEq] at read
  rw [read.1]

theorem isAt_append_iff {passed text : List Char} {count : Nat} {tag : TagBytes} :
    tag.IsAt (Text.encode (passed ++ text)) (byteLength passed + count) ↔
      tag.IsAt (Text.encode text) count := by
  constructor
  · rintro ⟨wellFormed, isPrefix⟩
    exact ⟨wellFormed, drop_encode_append passed text count ▸ isPrefix⟩
  · rintro ⟨wellFormed, isPrefix⟩
    exact ⟨wellFormed, (drop_encode_append passed text count).symm ▸ isPrefix⟩

end TagBytes

theorem startsTag_append_iff {passed text : List Char} {count : Nat} :
    StartsTag (Text.encode (passed ++ text)) (byteLength passed + count) ↔
      StartsTag (Text.encode text) count :=
  exists_congr fun _ => TagBytes.isAt_append_iff

section NoTag

open TagBytes

/-- No tag begins inside of a character, or at one that is not a `<` with a tag behind it. -/
theorem not_startsTag_cons {first : Char} {rest : List Char} {count : Nat}
    (inside : count < first.utf8Size)
    (noTag : first = '<' → ∀ lexeme after, Lexeme.read rest ≠ .tag lexeme after) :
    ¬StartsTag (Text.encode (first :: rest)) count := by
  rintro ⟨tag, here⟩
  rcases isAt_encode_iff.mp here with ⟨before, body, lexeme, after, split, length, read, -⟩
  cases before with
  | nil =>
      rw [List.nil_append, List.cons.injEq] at split
      exact noTag split.1 lexeme after (split.2 ▸ read)
  | cons initial before =>
      rw [List.cons_append, List.cons.injEq] at split
      rw [byteLength, ← split.1] at length
      omega

theorem not_startsTag_of_endless {rest : List Char} (endless : Lexeme.read rest = .endless)
    (count : Nat) : ¬StartsTag (Text.encode ('<' :: rest)) count := by
  rintro ⟨tag, here⟩
  rcases isAt_encode_iff.mp here with ⟨before, body, lexeme, after, split, -, read, -⟩
  have ended : '>' ∈ '<' :: body := by
    rw [(Lexeme.read_eq_tag_iff.mp read).2, Lexeme.toList]
    simp
  have inRest : '>' ∈ '<' :: rest := by
    rw [split]
    exact List.mem_append_right before ended
  simp [Lexeme.end_not_mem_of_endless endless] at inRest

theorem not_startsTag_nil (count : Nat) : ¬StartsTag (Text.encode []) count := by
  rintro ⟨tag, here⟩
  rcases isAt_encode_iff.mp here with ⟨before, body, lexeme, after, split, -, -, -⟩
  simp at split

end NoTag

namespace Lexeme

theorem getLast?_encode_eq_iff {text : List Char} {mark : Char} (ascii : mark.toNat < 128) :
    (Text.encode text).getLast? = some mark.toUInt8 ↔ text.getLast? = some mark := by
  rcases List.eq_nil_or_concat text with rfl | ⟨front, last, rfl⟩
  · simp
  · rw [List.concat_eq_append, List.getLast?_concat, encode_append, encode_cons, encode_nil,
      List.append_nil]
    by_cases narrow : last.toNat < 128
    · rw [utf8EncodeChar_of_ascii narrow, List.getLast?_concat, Option.some.injEq,
        Option.some.injEq]
      constructor
      · intro same
        rw [← ofUInt8_toUInt8 narrow, same, ofUInt8_toUInt8 ascii]
      · exact congrArg Char.toUInt8
    · constructor
      · intro isLast
        rw [List.getLast?_append_of_ne_nil _ String.utf8EncodeChar_ne_nil] at isLast
        have large := le_of_mem_utf8EncodeChar narrow (List.mem_of_getLast? isLast)
        rw [← toNat_ofUInt8, ofUInt8_toUInt8 ascii] at large
        omega
      · intro same
        exact absurd (Option.some.inj same ▸ ascii) narrow

theorem kind_encode (lexeme : Lexeme) : lexeme.encode.kind = lexeme.kind := by
  have slashLast : (Text.encode lexeme.region).getLast? = some '/'.toUInt8 ↔
      lexeme.region.getLast? = some '/' := getLast?_encode_eq_iff (by decide)
  have slash : lexeme.encode.slash.isSome = lexeme.slash.isSome := Option.isSome_map
  rw [TagBytes.kind, kind, slash]
  simp only [encode, slashLast]

end Lexeme

end MarkupPath
