import MarkupPath.Markup.Attributes
import MarkupPath.Text.Position

/-!
# Tags

A tag is what one pair of angle brackets says: which element starts or ends
there, with which attributes, and where in the document it stands.
-/

namespace MarkupPath

/-- What a tag does to the nesting of elements. -/
inductive TagKind
  /-- The element starts, as in `<a>`. -/
  | opening
  /-- The element ends, as in `</a>`. -/
  | closing
  /-- The element starts and ends, as in `<a/>`. -/
  | selfClosing
deriving DecidableEq, Repr

structure Tag where
  kind : TagKind
  name : String
  attributes : Attributes
  /-- Where the tag's `<` stands. -/
  start : Position
  /-- The whole text of the tag, brackets included. -/
  raw : String
deriving DecidableEq, Repr

namespace Tag

def offset (tag : Tag) : Nat :=
  tag.start.offset

def stop (tag : Tag) : Nat :=
  tag.offset + tag.raw.utf8ByteSize

/-- The offset is inside the tag or at one of its two ends. -/
def covers (tag : Tag) (offset : Nat) : Bool :=
  tag.offset ≤ offset && offset ≤ tag.stop

def isStartTag (tag : Tag) : Bool :=
  tag.kind != .closing

end Tag

end MarkupPath
