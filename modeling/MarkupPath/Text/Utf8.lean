/-!
# UTF-8

A document arrives as bytes. `Utf8.decode` reads them one at a time and keeps
the ranges of the bytes that the current character still lacks, so a fault is
seen at the first byte that rules every character out. Overlong forms,
surrogates and code points above U+10FFFF are refused through the range of the
second byte alone.
-/

namespace MarkupPath.Utf8

/-- Why bytes are not UTF-8. -/
inductive Fault
  /-- What follows the `length` bytes at `index` cannot complete them to a character. -/
  | invalid (length index : Nat)
  /-- The bytes end inside the character that starts at `index`. -/
  | incomplete (index : Nat)
deriving DecidableEq, Repr

def Fault.message : Fault → String
  | .invalid length index =>
      "invalid utf-8 sequence of " ++ length.repr ++ " bytes from index " ++ index.repr
  | .incomplete index => "incomplete utf-8 byte sequence from index " ++ index.repr

structure ByteRange where
  least : Nat
  greatest : Nat
deriving DecidableEq, Repr

namespace ByteRange

def contains (range : ByteRange) (byte : UInt8) : Bool :=
  range.least ≤ byte.toNat && byte.toNat ≤ range.greatest

/-- The bytes that continue a character. -/
def continuation : ByteRange := ⟨0x80, 0xBF⟩

end ByteRange

/--
What the first byte of a character announces: the bits that it adds to the code point, and the range
of each byte that has to follow.
-/
structure Lead where
  bits : Nat
  expected : List ByteRange
deriving DecidableEq, Repr

/-- Reads a first byte. No character starts with a continuation byte, `C0`, `C1` or `F5` and up. -/
def Lead.ofByte? (byte : UInt8) : Option Lead :=
  let code := byte.toNat
  let tail := ByteRange.continuation
  if code < 0x80 then some ⟨code, []⟩
  else if code < 0xC2 then none
  else if code < 0xE0 then some ⟨code - 0xC0, [tail]⟩
  else if code = 0xE0 then some ⟨0, [⟨0xA0, 0xBF⟩, tail]⟩
  else if code = 0xED then some ⟨0xD, [⟨0x80, 0x9F⟩, tail]⟩
  else if code < 0xF0 then some ⟨code - 0xE0, [tail, tail]⟩
  else if code = 0xF0 then some ⟨0, [⟨0x90, 0xBF⟩, tail, tail]⟩
  else if code < 0xF4 then some ⟨code - 0xF0, [tail, tail, tail]⟩
  else if code = 0xF4 then some ⟨4, [⟨0x80, 0x8F⟩, tail, tail]⟩
  else none

/-- The state of a reader between two bytes. -/
structure Decoder where
  /-- The complete characters so far. -/
  decoded : String := ""
  /-- How many bytes have been read. -/
  index : Nat := 0
  /-- Where the last character begun starts. -/
  start : Nat := 0
  /-- The code point bits of the unfinished character. -/
  bits : Nat := 0
  /-- The ranges of the bytes that the unfinished character still lacks. -/
  expected : List ByteRange := []

namespace Decoder

/-- Moves past one byte, after which the current character has these bits and lacks these bytes. -/
def settle (decoder : Decoder) (bits : Nat) (expected : List ByteRange) : Decoder :=
  match expected with
  | [] =>
      { decoder with
        decoded := decoder.decoded.push (Char.ofNat bits), index := decoder.index + 1, bits := 0,
        expected := [] }
  | _ => { decoder with index := decoder.index + 1, bits := bits, expected := expected }

def feed (decoder : Decoder) (byte : UInt8) : Except Fault Decoder :=
  match decoder.expected with
  | [] =>
      match Lead.ofByte? byte with
      | some lead => .ok ({ decoder with start := decoder.index }.settle lead.bits lead.expected)
      | none => .error (.invalid 1 decoder.index)
  | range :: later =>
      if range.contains byte then
        .ok (decoder.settle (decoder.bits * 0x40 + (byte.toNat - 0x80)) later)
      else .error (.invalid (decoder.index - decoder.start) decoder.start)

def finish (decoder : Decoder) : Except Fault String :=
  match decoder.expected with
  | [] => .ok decoder.decoded
  | _ => .error (.incomplete decoder.start)

end Decoder

/-- The text that the bytes encode, or the first fault in them. -/
def decode (bytes : ByteArray) : Except Fault String := do
  let decoder ← bytes.data.toList.foldlM Decoder.feed {}
  decoder.finish

end MarkupPath.Utf8
