import MarkupPath.Proofs.Markup.TagBytes

/-!
# Pairs in the bytes of a text

`LeftmostPairs` is the plain way to take attributes from some bytes: try each
position, take the pair that begins there, and go on behind it, or with the next
byte if none begins. The attributes of a text are the pairs found so, though they
are read by characters, and a name without a value is passed over as a whole.

No pair is lost by that. What begins in the middle of such a name has the rest of
it for a name, and no equals sign behind it either; and no pair begins in the
middle of a character, as its first byte is ASCII.
-/

namespace MarkupPath

open Markup Text

/-- The bytes begin with a quote that occurs again. -/
def BeginsQuoted (bytes : List UInt8) : Prop :=
  ∃ quote rest, bytes = quote :: rest ∧ byteClass isQuote quote = true ∧ quote ∈ rest

/-- The bytes begin with a value, and `rest` is what follows it. -/
inductive BeginsWithValue (bytes value rest : List UInt8) : Prop
  /-- The value ends at the next quote of the kind that it begins with. -/
  | quoted {quote : UInt8} (isQuote : byteClass isQuote quote = true)
      (split : bytes = quote :: (value ++ quote :: rest)) (unquoted : quote ∉ value)
  | bare (noQuotes : ¬BeginsQuoted bytes) (split : bytes = value ++ rest)
      (longest : LongestRun (byteClass isBareChar) value rest)

/-- The bytes begin with a pair of this name and value, and `rest` is what follows it. -/
inductive BeginsWithPair (bytes name value rest : List UInt8) : Prop
  | intro {first : UInt8} {more before behind valueBytes : List UInt8}
      (named : name = first :: more) (start : byteClass isNameStart first = true)
      (split : bytes = name ++ (before ++ '='.toUInt8 :: (behind ++ valueBytes)))
      (longestName : LongestRun (byteClass isNameChar) name
        (before ++ '='.toUInt8 :: (behind ++ valueBytes)))
      (longestBefore : LongestRun (byteClass isSpace) before
        ('='.toUInt8 :: (behind ++ valueBytes)))
      (longestBehind : LongestRun (byteClass isSpace) behind valueBytes)
      (valued : BeginsWithValue valueBytes value rest)

/--
The names and values that are found by trying the positions of some bytes one by one. The bytes are
those from the next position on.
-/
inductive LeftmostPairs : List UInt8 → List (List UInt8 × List UInt8) → Prop
  | done : LeftmostPairs [] []
  /-- A pair is taken, and the next position is the one behind it. -/
  | take {bytes name value rest : List UInt8} {pairs : List (List UInt8 × List UInt8)}
      (here : BeginsWithPair bytes name value rest) (later : LeftmostPairs rest pairs) :
      LeftmostPairs bytes ((name, value) :: pairs)
  /-- No pair begins here. -/
  | pass {byte : UInt8} {rest : List UInt8} {pairs : List (List UInt8 × List UInt8)}
      (none : ∀ name value behind, ¬BeginsWithPair (byte :: rest) name value behind)
      (later : LeftmostPairs rest pairs) : LeftmostPairs (byte :: rest) pairs

theorem ascii_of_isQuote {character : Char} (quote : isQuote character = true) :
    character.toNat < 128 := by
  simp only [isQuote, Bool.or_eq_true, decide_eq_true_eq] at quote
  rcases quote with rfl | rfl <;> decide

theorem isCoarse_isBareChar : IsCoarse isBareChar := by
  have bare : ∀ character : Char, ¬character.toNat < 128 → isBareChar character = true := by
    intro character wide
    have notSpace : isSpace character = false :=
      Bool.eq_false_iff.mpr fun space => wide (ascii_of_isSpace space)
    have notEnd : character ≠ '>' := by
      rintro rfl
      exact wide (by decide)
    simp [isBareChar, notSpace, notEnd]
  intro one other wide otherWide
  rw [bare one wide, bare other otherWide]

section Unique

variable {bytes name value rest otherName other otherRest : List UInt8}

/-- There is one way at most to read a value. -/
theorem BeginsWithValue.unique (here : BeginsWithValue bytes value rest)
    (there : BeginsWithValue bytes other otherRest) : value = other ∧ rest = otherRest := by
  have quotes : ∀ {quote value rest}, byteClass isQuote quote = true →
      bytes = quote :: (value ++ quote :: rest) → BeginsQuoted bytes :=
    fun isQuote split => ⟨_, _, split, isQuote, by simp⟩
  cases here with
  | quoted isQuote split unquoted =>
      cases there with
      | quoted otherIsQuote otherSplit otherUnquoted =>
          rw [split, List.cons.injEq] at otherSplit
          rcases otherSplit with ⟨rfl, same⟩
          have sameValue := front_eq_of_not_mem unquoted otherUnquoted same
          subst sameValue
          exact ⟨rfl, (List.cons.inj (List.append_cancel_left same)).2⟩
      | bare noQuotes _ _ => exact absurd (quotes isQuote split) noQuotes
  | bare noQuotes split longest =>
      cases there with
      | quoted otherIsQuote otherSplit _ => exact absurd (quotes otherIsQuote otherSplit) noQuotes
      | bare _ otherSplit otherLongest =>
          exact longest.unique otherLongest (split.symm.trans otherSplit)

/-- There is one way at most to read a pair. -/
theorem BeginsWithPair.unique (here : BeginsWithPair bytes name value rest)
    (there : BeginsWithPair bytes otherName other otherRest) :
    name = otherName ∧ value = other ∧ rest = otherRest := by
  cases here with
  | intro _ _ split longestName longestBefore longestBehind valued =>
      cases there with
      | intro _ _ otherSplit otherLongestName otherLongestBefore otherLongestBehind otherValued =>
          have names := longestName.unique otherLongestName (split.symm.trans otherSplit)
          have signs := longestBefore.unique otherLongestBefore names.2
          have values := longestBehind.unique otherLongestBehind (List.cons.inj signs.2).2
          rw [← values.2] at otherValued
          exact ⟨names.1, valued.unique otherValued⟩

theorem not_beginsWithPair_nil : ¬BeginsWithPair [] name value rest := by
  rintro ⟨rfl, -, split, -, -, -, -⟩
  exact nomatch split

end Unique

namespace LeftmostPairs

theorem unique {bytes : List UInt8} {found other : List (List UInt8 × List UInt8)}
    (leftmost : LeftmostPairs bytes found) (otherLeftmost : LeftmostPairs bytes other) :
    found = other := by
  induction leftmost generalizing other with
  | done =>
      cases otherLeftmost with
      | done => rfl
      | take here _ => exact absurd here not_beginsWithPair_nil
  | take here later ih =>
      cases otherLeftmost with
      | done => exact absurd here not_beginsWithPair_nil
      | take there otherLater =>
          rcases here.unique there with ⟨rfl, rfl, rfl⟩
          rw [ih otherLater]
      | pass none _ => exact absurd here (none _ _ _)
  | pass none later ih =>
      cases otherLeftmost with
      | take there _ => exact absurd there (none _ _ _)
      | pass _ otherLater => exact ih otherLater

/-- Where no pair begins, the positions are passed one by one. -/
theorem pass_over {passed rest : List UInt8} {found : List (List UInt8 × List UInt8)}
    (none : ∀ back, back <:+ passed → back ≠ [] →
      ∀ name value behind, ¬BeginsWithPair (back ++ rest) name value behind)
    (later : LeftmostPairs rest found) : LeftmostPairs (passed ++ rest) found := by
  induction passed with
  | nil => exact later
  | cons byte passed ih =>
      have further := ih fun back isSuffix => none back (isSuffix.trans (List.suffix_cons byte _))
      exact further.pass (none _ List.suffix_rfl (List.cons_ne_nil _ _))

end LeftmostPairs

section Reading

variable {text valueText : List Char}

theorem exists_of_afterEquals? (found : afterEquals? text = some valueText) :
    ∃ before behind, text = before ++ '=' :: (behind ++ valueText) ∧
      LongestRun isSpace before ('=' :: (behind ++ valueText)) ∧
      LongestRun isSpace behind valueText := by
  have longest := longestRun_takeWhile isSpace text
  have split := List.takeWhile_append_dropWhile (p := isSpace) (l := text)
  unfold afterEquals? at found
  split at found
  next after equals =>
    simp only [Option.some.injEq] at found
    subst found
    refine ⟨text.takeWhile isSpace, after.takeWhile isSpace, ?_, ?_,
      longestRun_takeWhile isSpace after⟩
    · rw [List.takeWhile_append_dropWhile, ← equals, split]
    · rw [List.takeWhile_append_dropWhile, ← equals]
      exact longest
  next => exact nomatch found

theorem readValue_of_noQuotes (noQuotes : ¬BeginsQuoted (encode text)) :
    readValue text = (text.takeWhile isBareChar, text.dropWhile isBareChar) := by
  cases text with
  | nil => rfl
  | cons first rest =>
      rw [readValue]
      split
      next closed =>
        rw [Bool.and_eq_true, List.contains_iff_mem] at closed
        have ascii := ascii_of_isQuote closed.1
        refine absurd ⟨first.toUInt8, encode rest, encode_cons_of_ascii ascii rest, ?_, ?_⟩ noQuotes
        · rw [byteClass, ofUInt8_toUInt8 ascii]
          exact closed.1
        · exact List.mem_flatMap.mpr ⟨first, closed.2, by simp [utf8EncodeChar_of_ascii ascii]⟩
      next => rfl

theorem beginsWithValue_readValue (text : List Char) :
    BeginsWithValue (encode text) (encode (readValue text).1) (encode (readValue text).2) := by
  by_cases quoted : BeginsQuoted (encode text)
  · rcases quoted with ⟨quote, after, encoded, isQuote, again⟩
    have ascii : quote.toNat < 128 := by
      rw [← toNat_ofUInt8]
      exact ascii_of_isQuote isQuote
    rcases exists_of_encode_eq_cons encoded ascii with ⟨rest, rfl, rfl⟩
    rw [mem_encode_iff ascii] at again
    rcases List.eq_append_cons_of_mem again with ⟨value, behind, rfl, unquoted⟩
    rw [readValue_quoted isQuote unquoted]
    refine BeginsWithValue.quoted isQuote ?_ ?_
    · rw [encoded, encode_append, encode_cons_of_ascii (by rwa [toNat_ofUInt8]), toUInt8_ofUInt8]
    · rwa [mem_encode_iff ascii]
  · have longest := longestRun_takeWhile isBareChar text
    rw [readValue_of_noQuotes quoted]
    refine BeginsWithValue.bare quoted ?_ (longest.encode isCoarse_isBareChar)
    rw [← encode_append, List.takeWhile_append_dropWhile]

variable {first : Char} {rest : List Char} (start : isNameStart first = true)

include start

theorem beginsWithPair_of_afterEquals?
    (found : afterEquals? (rest.dropWhile isNameChar) = some valueText) :
    BeginsWithPair (encode (first :: rest)) (encode (first :: rest.takeWhile isNameChar))
      (encode (readValue valueText).1) (encode (readValue valueText).2) := by
  have inName := isNameChar_of_isNameStart start
  have ascii := ascii_of_isNameChar inName
  rcases exists_of_afterEquals? found with ⟨before, behind, split, longestBefore, longestBehind⟩
  have longestName := longestRun_takeWhile isNameChar (first :: rest)
  have whole := List.takeWhile_append_dropWhile (p := isNameChar) (l := first :: rest)
  rw [List.takeWhile_cons_of_pos inName, List.dropWhile_cons_of_pos inName,
    split] at longestName whole
  have encodedRest : encode (before ++ '=' :: (behind ++ valueText)) =
      encode before ++ '='.toUInt8 :: (encode behind ++ encode valueText) := by
    rw [encode_append, encode_cons_of_ascii (by decide), encode_append]
  have encodedName := longestName.encode isCoarse_isNameChar
  have encodedBefore := longestBefore.encode isCoarse_isSpace
  rw [encodedRest] at encodedName
  rw [encode_cons_of_ascii (by decide), encode_append] at encodedBefore
  refine BeginsWithPair.intro (encode_cons_of_ascii ascii _) ?_ ?_ encodedName encodedBefore
    (longestBehind.encode isCoarse_isSpace) (beginsWithValue_readValue valueText)
  · rw [byteClass, ofUInt8_toUInt8 ascii]
    exact start
  · rw [← whole, encode_append, encodedRest]

end Reading

section NoPair

variable {name value behind : List UInt8}

/-- No pair begins in a run of name bytes that no equals sign follows. -/
theorem not_beginsWithPair_of_run {back : List UInt8} {text : List Char}
    (longest : LongestRun (byteClass isNameChar) back (encode text))
    (missing : afterEquals? text = none) :
    ¬BeginsWithPair (back ++ encode text) name value behind := by
  intro pair
  cases pair with
  | @intro _ _ before _ _ _ _ split longestName longestBefore _ _ =>
      have names := longest.unique longestName split
      rcases exists_of_encode_eq_append names.2 (ascii_of_forall_isSpace longestBefore.inside) with
        ⟨signed, rfl, encodedSigned⟩
      rcases exists_of_encode_eq_cons encodedSigned (by decide) with ⟨after, rfl, -⟩
      have space : ∀ character ∈ before.map Char.ofUInt8, isSpace character = true := by
        intro character member
        rcases List.mem_map.mp member with ⟨byte, inBefore, rfl⟩
        exact longestBefore.inside byte inBefore
      exact nomatch missing.symm.trans (afterEquals?_of_spaces space after)

/-- No pair begins in a character that begins no name. -/
theorem not_beginsWithPair_of_mem {first : Char} {byte : UInt8} {rest : List UInt8}
    (other : ¬isNameStart first = true) (member : byte ∈ String.utf8EncodeChar first) :
    ¬BeginsWithPair (byte :: rest) name value behind := by
  rintro ⟨rfl, start, split, -, -, -, -⟩
  rw [List.cons_append, List.cons.injEq] at split
  rw [← split.1, byteClass_of_mem isCoarse_isNameStart member] at start
  exact other start

end NoPair

/-- Reading by characters gives the pairs that are found by trying each byte. -/
theorem leftmostPairs_readPairs (text : List Char) :
    LeftmostPairs (encode text)
      ((readPairs text).map fun pair => (bytes pair.1, bytes pair.2)) := by
  fun_induction readPairs text with
  | case1 => exact LeftmostPairs.done
  | case2 first rest start valueText found ih =>
      rw [List.map_cons, bytes_ofList, bytes_ofList]
      exact LeftmostPairs.take (beginsWithPair_of_afterEquals? start found) ih
  | case3 first rest start missing ih =>
      have inName := isNameChar_of_isNameStart start
      have longest := (longestRun_takeWhile isNameChar (first :: rest)).encode isCoarse_isNameChar
      have whole := List.takeWhile_append_dropWhile (p := isNameChar) (l := first :: rest)
      rw [List.dropWhile_cons_of_pos inName] at longest whole
      rw [← whole, encode_append]
      refine LeftmostPairs.pass_over ?_ ih
      -- The end of the name is a run of name bytes as well, and followed by the same.
      intro back isSuffix _ name value behind
      have longestBack : LongestRun (byteClass isNameChar) back
          (encode (rest.dropWhile isNameChar)) :=
        ⟨fun byte member => longest.inside byte (isSuffix.mem member), longest.stops⟩
      exact not_beginsWithPair_of_run longestBack missing
  | case4 first rest other ih =>
      rw [encode_cons]
      refine LeftmostPairs.pass_over ?_ ih
      intro back isSuffix notEmpty name value behind
      cases back with
      | nil => exact absurd rfl notEmpty
      | cons byte back => exact not_beginsWithPair_of_mem other (isSuffix.mem List.mem_cons_self)

namespace Attributes

/--
The attributes of a text are the pairs that are found in its bytes by trying each position, a later
value for a name in the place of an earlier one. There is one way to find them.
-/
theorem leftmostPairs_ofText (text : String) :
    ∃ pairs : List (String × String), ofText text.toList = NameTable.ofPairs pairs ∧
      ∀ found, LeftmostPairs (bytes text) found ↔
        found = pairs.map fun pair => (bytes pair.1, bytes pair.2) := by
  have leftmost := leftmostPairs_readPairs text.toList
  rw [← bytes_eq_encode] at leftmost
  refine ⟨readPairs text.toList, rfl, fun found => ⟨fun other => other.unique leftmost, ?_⟩⟩
  rintro rfl
  exact leftmost

/-- A quote without another one is part of the value, and `c` is passed over with its digit. -/
example : (ofText "é a =\"1 3b='>' c1 a= 'x'".toList).entries = [("a", "x"), ("b", ">")] := by
  cbv

end Attributes

end MarkupPath
