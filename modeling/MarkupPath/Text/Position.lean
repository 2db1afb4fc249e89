import MarkupPath.Text.ByteLength

/-!
# Positions in a text

A position is a byte offset together with its line and column. All three count
from zero, offset and column in UTF-8 bytes. Positions are tracked character by
character: `Position.advance` moves past one character, and walking over a text
in two parts is walking over it at once.
-/

namespace MarkupPath

/-- A place between two characters of a text. -/
structure Position where
  /-- Bytes before the place. -/
  offset : Nat
  /-- Newlines before the place. -/
  line : Nat
  /-- Bytes between the last newline before the place and the place. -/
  column : Nat
deriving DecidableEq, Repr

namespace Position

def origin : Position := ⟨0, 0, 0⟩

def advance (position : Position) (character : Char) : Position :=
  if character = '\n' then ⟨position.offset + 1, position.line + 1, 0⟩
  else
    ⟨position.offset + character.utf8Size, position.line, position.column + character.utf8Size⟩

/-- The position after some more text. -/
def advanceOver (position : Position) (text : List Char) : Position :=
  text.foldl advance position

/--
Moves on to the first character that starts at `start` or later, and gives its position and the text
from there.
-/
def seek (start : Nat) (position : Position) : List Char → Position × List Char
  | [] => (position, [])
  | character :: rest =>
      if position.offset < start then seek start (position.advance character) rest
      else (position, character :: rest)

@[simp]
theorem offset_advance (position : Position) (character : Char) :
    (position.advance character).offset = position.offset + character.utf8Size := by
  unfold advance
  split
  next newline => subst newline; rfl
  next => rfl

@[simp]
theorem advanceOver_nil (position : Position) : position.advanceOver [] = position :=
  rfl

@[simp]
theorem advanceOver_cons (position : Position) (character : Char) (text : List Char) :
    position.advanceOver (character :: text) = (position.advance character).advanceOver text :=
  rfl

@[simp]
theorem advanceOver_append (position : Position) (text more : List Char) :
    position.advanceOver (text ++ more) = (position.advanceOver text).advanceOver more :=
  List.foldl_append

theorem offset_advanceOver (position : Position) (text : List Char) :
    (position.advanceOver text).offset = position.offset + Text.byteLength text := by
  induction text generalizing position with
  | nil => rfl
  | cons character text ih => simp [ih, Text.byteLength, Nat.add_assoc]

end Position

end MarkupPath
