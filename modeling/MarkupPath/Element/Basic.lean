import MarkupPath.Element.Ancestry
import MarkupPath.Markup.Tag

/-!
# Elements

An element as its start tag shows it. Where it ends is known at once only for an
element without content.
-/

namespace MarkupPath

structure Element where
  name : String
  attributes : Attributes
  /-- Where the start tag's `<` stands. -/
  start : Position
  /-- The offset at which the element ends, if its start tag tells. -/
  stop : Option Nat
deriving DecidableEq, Repr

namespace Element

instance : Named Element := ⟨Element.name⟩

def ofTag (tag : Tag) : Element where
  name := tag.name
  attributes := tag.attributes
  start := tag.start
  stop := if tag.kind = .selfClosing then some tag.stop else none

def offset (element : Element) : Nat :=
  element.start.offset

/-- What is open after a tag. -/
def openAfter (opened : Ancestry Element) (tag : Tag) : Ancestry Element :=
  match tag.kind with
  | .opening => opened.push (ofTag tag)
  | .closing => opened.close tag.name
  | .selfClosing => opened

end Element

end MarkupPath
