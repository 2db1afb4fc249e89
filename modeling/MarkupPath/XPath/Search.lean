import MarkupPath.Element.Ancestry
import MarkupPath.XPath.Step

/-!
# Search

Steps lead from the top of a document to an element: the first step to a
top-level element, every further step to a child of the element before. `find`
reads the tags once. It counts the children of every open element by name, so it
knows the sibling index of each start tag, and it keeps the depths of the open
elements that the steps so far have led to. An element in which the remaining
steps fail is left again at its closing tag, and the search goes on after it.
-/

namespace MarkupPath.XPath

/-- How many children of each name have started. -/
abbrev Tally := NameTable Nat

namespace Tally

def count (tally : Tally) (name : String) : Nat :=
  (tally.get? name).getD 0

def bump (tally : Tally) (name : String) : Tally :=
  tally.insert name (tally.count name + 1)

end Tally

structure Frame where
  name : String
  children : Tally
deriving DecidableEq, Repr

instance : Named Frame := ⟨Frame.name⟩

/-- What a search remembers between two tags. -/
structure Search where
  opened : Ancestry Frame := .empty
  /-- The count of the elements that are in no other. -/
  topLevel : Tally := .empty
  /-- The depths of the open elements that the steps have led to, the innermost first. -/
  matched : List Nat := []
deriving DecidableEq, Repr

namespace Search

/-- The count that an element starting here belongs to. -/
def siblings (search : Search) : Tally :=
  match search.opened.innermost? with
  | some frame => frame.children
  | none => search.topLevel

def nextIndex (search : Search) (name : String) : Nat :=
  search.siblings.count name + 1

/-- The depth at which the next step is to be taken. -/
def awaitedDepth (search : Search) : Nat :=
  match search.matched with
  | [] => 0
  | depth :: _ => depth + 1

/-- The next step leads to the element of this start tag. -/
def accepts (search : Search) (steps : List Step) (nameAttributes : List String) (tag : Tag) :
    Bool :=
  search.opened.depth = search.awaitedDepth &&
    match steps[search.matched.length]? with
    | some step => step.accepts nameAttributes tag (search.nextIndex tag.name)
    | none => false

/-- The last of the steps leads to the element of this tag. -/
def completes (search : Search) (steps : List Step) (nameAttributes : List String) (tag : Tag) :
    Bool :=
  tag.isStartTag && search.accepts steps nameAttributes tag &&
    search.matched.length + 1 = steps.length

def bump (search : Search) (name : String) : Search :=
  if search.opened.isEmpty then { search with topLevel := search.topLevel.bump name }
  else
    { search with
      opened := search.opened.modifyInnermost fun frame =>
        { frame with children := frame.children.bump name } }

/-- An element of this name is open from here on. -/
def enter (search : Search) (name : String) : Search :=
  { search with opened := search.opened.push ⟨name, .empty⟩ }

/-- A closing tag of this name. What was found in the element that it ends is given up. -/
def leave (search : Search) (name : String) : Search :=
  let opened := search.opened.close name
  { search with
    opened := opened, matched := search.matched.dropWhile (opened.depth ≤ ·) }

/-- Takes note of a tag that does not complete the path. -/
def visit (search : Search) (steps : List Step) (nameAttributes : List String) (tag : Tag) :
    Search :=
  match tag.kind with
  | .closing => search.leave tag.name
  | .selfClosing => search.bump tag.name
  | .opening =>
      let matched :=
        if search.accepts steps nameAttributes tag then search.opened.depth :: search.matched
        else search.matched
      { (search.bump tag.name).enter tag.name with matched := matched }

/-- Where the first start tag stands that completes the path. -/
def run (search : Search) (steps : List Step) (nameAttributes : List String) :
    List Tag → Option Position
  | [] => none
  | tag :: rest =>
      if search.completes steps nameAttributes tag then some tag.start
      else run (search.visit steps nameAttributes tag) steps nameAttributes rest

end Search

/-- The start of the element that the steps lead to. -/
def find (tags : List Tag) (steps : List Step) (nameAttributes : List String) : Option Position :=
  Search.run {} steps nameAttributes tags

end MarkupPath.XPath
