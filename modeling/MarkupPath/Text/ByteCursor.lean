import MarkupPath.Markup.Name

/-!
# Byte cursors

A cursor over the bytes of a text. Its position is a 64-bit word that callers
may set to anything: beyond the text there is nothing to see and nothing to
find, and advancing wraps around.
-/

namespace MarkupPath

/-- A sequence of bytes with a position in it or beyond it. -/
structure ByteCursor where
  bytes : List UInt8
  position : UInt64 := 0
deriving DecidableEq, Repr

namespace ByteCursor

def ofText (text : String) : ByteCursor where
  bytes := text.toUTF8.data.toList

def ahead (cursor : ByteCursor) : List UInt8 :=
  cursor.bytes.drop cursor.position.toNat

def peek (cursor : ByteCursor) : Option UInt8 :=
  cursor.ahead.head?

def moveTo (cursor : ByteCursor) (position : UInt64) : ByteCursor :=
  { cursor with position := position }

/-- Moves on by a number of bytes, modulo 2⁶⁴. -/
def advance (cursor : ByteCursor) (count : UInt64) : ByteCursor :=
  { cursor with position := cursor.position + count }

/-- How many bytes from the position on satisfy the predicate, up to the first that does not. -/
def run (cursor : ByteCursor) (predicate : UInt8 → Bool) : Nat :=
  (cursor.ahead.takeWhile predicate).length

def skipWhile (cursor : ByteCursor) (predicate : UInt8 → Bool) : ByteCursor :=
  cursor.advance (cursor.run predicate).toUInt64

/-- Moves past the white space of the tag grammar. -/
def skipSpaces (cursor : ByteCursor) : ByteCursor :=
  cursor.skipWhile fun byte => Markup.isSpace (Char.ofUInt8 byte)

/-- The offset of the next byte with this value, the one at the position included. -/
def find? (cursor : ByteCursor) (byte : UInt8) : Option Nat :=
  (cursor.ahead.findIdx? (· = byte)).map (cursor.position.toNat + ·)

def tagStart? (cursor : ByteCursor) : Option Nat :=
  cursor.find? '<'.toUInt8

/-- The offset of the next `>`. Quotes do not hide it. -/
def tagEnd? (cursor : ByteCursor) : Option Nat :=
  cursor.find? '>'.toUInt8

end ByteCursor

end MarkupPath
