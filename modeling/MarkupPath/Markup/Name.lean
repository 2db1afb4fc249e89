/-!
# Characters of the tag grammar

Names and the white space between them are ASCII, whatever else a document
holds. Each class is given as a predicate on characters; they exclude each other
and the punctuation of tags.
-/

namespace MarkupPath.Markup

/-- White space inside tags: space, tab, newline, vertical tab, form feed and carriage return. -/
def isSpace (character : Char) : Bool :=
  character = ' ' || character = '\t' || character = '\n' || character = '\x0b' ||
    character = '\x0c' || character = '\r'

/-- The first character of a name: an ASCII letter or `_`. -/
def isNameStart (character : Char) : Bool :=
  character.isAlpha || character = '_'

/-- A further character of a name: also an ASCII digit, `-`, `.` or `:`. -/
def isNameChar (character : Char) : Bool :=
  isNameStart character || character.isDigit || character = '-' || character = '.' ||
    character = ':'

def isQuote (character : Char) : Bool :=
  character = '"' || character = '\''

theorem isNameChar_of_isNameStart {character : Char} (start : isNameStart character = true) :
    isNameChar character = true := by
  simp [isNameChar, start]

end MarkupPath.Markup
