import MarkupPath.Element.Sibling

/-!
# Path segments

What a path tells of each of its elements: the tag name, the index among the
siblings of that name, and the value of the attribute that names it, if any
does. Segments no longer depend on the document.
-/

namespace MarkupPath

/-- One step of a path, as it is shown. -/
structure Segment where
  tag : String
  index : Nat
  name : Option String
  index_pos : 0 < index
deriving DecidableEq, Repr

namespace Segment

/-- The segment with these parts, where the index zero stands for one. -/
def ofParts (tag : String) (index : Nat) (name : Option String) : Segment where
  tag := tag
  index := max 1 index
  name := name
  index_pos := by omega

def ofElement (text : String) (path : List Element) (skip : NameSet) (nameAttributes : List String)
    (element : Element) (place : Nat) : Segment where
  tag := element.name
  index := Element.siblingIndex text path place skip
  name := element.attributes.firstFilled nameAttributes
  index_pos := Element.siblingIndex_pos text path place skip

/-- The segments of a path, without the elements that are skipped. -/
def ofPath (text : String) (path : List Element) (skip : NameSet) (nameAttributes : List String) :
    List Segment :=
  (path.zipIdx.filter fun (element, _) => !skip.contains element.name).map fun (element, place) =>
    ofElement text path skip nameAttributes element place

theorem ofPath_empty (text : String) (path : List Element) (nameAttributes : List String) :
    ofPath text path .empty nameAttributes =
      path.zipIdx.map fun (element, place) =>
        ofElement text path .empty nameAttributes element place := by
  rw [ofPath, List.filter_eq_self.mpr]
  intro entry _
  rfl

end Segment

end MarkupPath
