import MarkupPath.Markup.Lexeme

/-!
# The tags of a text

`Tag.scan` gives the tags of a text from left to right. Every `<` outside of the
tags found before it is tried once, and a tag ends at the first `>` after its
name, so no two tags overlap. Comments, character data sections and declarations
are not special: what looks like a tag in them is one.

Once a name has no `>` after it the rest of the text holds no tag, and the scan
ends there.
-/

namespace MarkupPath.Tag

def scanAt (position : Position) : List Char → List Tag
  | [] => []
  | first :: rest =>
      if first = '<' then
        match _ : Lexeme.read rest with
        | .tag lexeme after =>
            lexeme.toTag position :: scanAt (position.advanceOver lexeme.toList) after
        | .notATag => scanAt (position.advance first) rest
        | .endless => []
      else scanAt (position.advance first) rest
termination_by text => text.length
decreasing_by
  · rename_i found
    exact Lexeme.length_lt_of_read found
  · simp
  · simp

theorem scanAt_of_tag {position : Position} {text after : List Char} {lexeme : Lexeme}
    (found : Lexeme.read text = .tag lexeme after) :
    scanAt position ('<' :: text) =
      lexeme.toTag position :: scanAt (position.advanceOver lexeme.toList) after := by
  rw [scanAt, if_pos rfl]
  split
  next found' =>
    rw [found, Lexeme.Reading.tag.injEq] at found'
    rw [found'.1, found'.2]
  next none => exact nomatch found.symm.trans none
  next none => exact nomatch found.symm.trans none

theorem scanAt_of_notATag {position : Position} {text : List Char}
    (none : Lexeme.read text = .notATag) :
    scanAt position ('<' :: text) = scanAt (position.advance '<') text := by
  rw [scanAt, if_pos rfl]
  split
  next found => exact nomatch none.symm.trans found
  next => rfl
  next endless => exact nomatch none.symm.trans endless

theorem scanAt_of_ne {position : Position} {first : Char} {text : List Char} (other : first ≠ '<') :
    scanAt position (first :: text) = scanAt (position.advance first) text := by
  rw [scanAt, if_neg other]

/--
The tags of a text that start at the offset `start` or later, when scanning begins there. Positions
count from the beginning of the text.
-/
def scanFrom (text : String) (start : Nat) : List Tag :=
  let place := Position.seek start .origin text.toList
  scanAt place.1 place.2

def scan (text : String) : List Tag :=
  scanFrom text 0

end MarkupPath.Tag
