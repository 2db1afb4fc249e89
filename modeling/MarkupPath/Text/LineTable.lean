import MarkupPath.Text.Position

/-!
# Line tables

A line table answers questions about the lines of one text in any order:
`LineTable.location` turns an offset into a position, and `LineTable.offsetAt`
turns a line and a column back into an offset. Both clamp: offsets to the text,
columns to the line.
-/

namespace MarkupPath

/-- Where the lines of a text start, and where the text ends. -/
structure LineTable where
  /-- The offset right after each newline, in ascending order. -/
  afterNewlines : List Nat
  /-- The length of the text in bytes. -/
  length : Nat
deriving DecidableEq, Repr

namespace LineTable

/-- The offsets right after the newlines of a text that starts at `offset`. -/
def newlineEnds (offset : Nat) : List Char → List Nat
  | [] => []
  | character :: rest =>
      let next := offset + character.utf8Size
      if character = '\n' then next :: newlineEnds next rest else newlineEnds next rest

def ofText (text : String) : LineTable :=
  ⟨newlineEnds 0 text.toList, text.utf8ByteSize⟩

def lineStarts (table : LineTable) : List Nat :=
  0 :: table.afterNewlines

/-- How many lines the text has. A text without newlines has one. -/
def lineCount (table : LineTable) : Nat :=
  table.lineStarts.length

/-- The position of an offset. Beyond the end of the text it is the position of the end. -/
def location (table : LineTable) (offset : Nat) : Position :=
  let place := min offset table.length
  let passed := table.afterNewlines.takeWhile (· ≤ place)
  ⟨place, passed.length, place - passed.getLastD 0⟩

/--
The offset of a line and a column. A column beyond the end of its line falls on the line's newline,
or on the end of the text for the last line, and a line beyond the last is the end of the text.
-/
def offsetAt (table : LineTable) (line column : Nat) : Nat :=
  match table.lineStarts[line]? with
  | none => table.length
  | some start =>
      let lineEnd :=
        match table.lineStarts[line + 1]? with
        | some next => next - 1
        | none => table.length
      min (start + column) lineEnd

end LineTable

end MarkupPath
