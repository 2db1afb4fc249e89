import MarkupPath.Element.Basic
import MarkupPath.Markup.Scan

/-!
# The element at an offset

A cursor inside a start tag, or at one of its ends, is at the element of that
tag; where two start tags touch, the later one counts. Anywhere else the cursor
is at the innermost element that is open there, and a cursor inside a closing
tag is still in the element that the tag ends. `Element.enclosing` finds the
element together with all those around it in one pass over the tags.
-/

namespace MarkupPath.Element

/-- What a pass over the tags up to an offset remembers. -/
structure Trail where
  /-- The elements that are open after the tags so far. -/
  opened : Ancestry Element := .empty
  /-- The path to the element of the last start tag that covers the offset. -/
  inTag : Option (List Element) := none
  /-- The elements that were open before the first tag that reaches the offset. -/
  inContent : Option (List Element) := none
deriving DecidableEq, Repr

namespace Trail

/-- Takes note of the next tag. -/
def visit (offset : Nat) (trail : Trail) (tag : Tag) : Trail where
  opened := openAfter trail.opened tag
  inTag :=
    if tag.isStartTag && tag.covers offset then some (trail.opened.toList ++ [ofTag tag])
    else trail.inTag
  inContent :=
    if trail.inContent.isNone && offset ≤ tag.stop then some trail.opened.toList
    else trail.inContent

/-- The elements down to the deepest that starts at the offset or before it. -/
def startedBy (offset : Nat) (elements : List Element) : List Element :=
  (elements.reverse.dropWhile fun element => offset < element.offset).reverse

def path (trail : Trail) (offset : Nat) : List Element :=
  trail.inTag.getD (startedBy offset (trail.inContent.getD trail.opened.toList))

end Trail

/--
The elements around an offset, from the outermost to the one at the offset. There are none where no
element is open and no start tag covers the offset.
-/
def enclosing (tags : List Tag) (offset : Nat) : List Element :=
  ((tags.takeWhile (·.offset ≤ offset)).foldl (Trail.visit offset) {}).path offset

def enclosingIn (text : String) (offset : Nat) : List Element :=
  enclosing (Tag.scan text) offset

end MarkupPath.Element
