/-!
# Ancestries

Which elements are open at a place of a document is decided by one tolerant
rule: a closing tag ends the innermost open element if it has that element's
name, and is without effect otherwise. An element that is never closed stays
open to the end. `Ancestry` keeps the open elements under this rule, whatever a
reader of tags wants to remember of each of them.
-/

namespace MarkupPath

/-- Things that stand for an element and know its name. -/
class Named (Entry : Type) where
  nameOf : Entry → String

instance : Named String := ⟨id⟩

/-- The open elements at a place of a document. -/
structure Ancestry (Entry : Type) where
  innermostFirst : List Entry
deriving DecidableEq, Repr

namespace Ancestry

variable {Entry : Type}

def empty : Ancestry Entry := ⟨[]⟩

def depth (ancestry : Ancestry Entry) : Nat :=
  ancestry.innermostFirst.length

def isEmpty (ancestry : Ancestry Entry) : Bool :=
  ancestry.innermostFirst.isEmpty

def innermost? (ancestry : Ancestry Entry) : Option Entry :=
  ancestry.innermostFirst.head?

def toList (ancestry : Ancestry Entry) : List Entry :=
  ancestry.innermostFirst.reverse

def push (ancestry : Ancestry Entry) (entry : Entry) : Ancestry Entry :=
  ⟨entry :: ancestry.innermostFirst⟩

/-- Changes what is remembered of the innermost open element. -/
def modifyInnermost (ancestry : Ancestry Entry) (change : Entry → Entry) : Ancestry Entry :=
  ⟨ancestry.innermostFirst.modifyHead change⟩

@[simp]
theorem toList_empty : (empty : Ancestry Entry).toList = [] :=
  rfl

@[simp]
theorem toList_push (ancestry : Ancestry Entry) (entry : Entry) :
    (ancestry.push entry).toList = ancestry.toList ++ [entry] := by
  simp [push, toList]

@[simp]
theorem depth_push (ancestry : Ancestry Entry) (entry : Entry) :
    (ancestry.push entry).depth = ancestry.depth + 1 :=
  rfl

variable [Named Entry]

/-- The element that a closing tag of this name ends. -/
def closed? (ancestry : Ancestry Entry) (name : String) : Option Entry :=
  ancestry.innermost?.filter (Named.nameOf · = name)

/-- What is open after a closing tag of this name. -/
def close (ancestry : Ancestry Entry) (name : String) : Ancestry Entry :=
  match ancestry.innermostFirst with
  | [] => ancestry
  | entry :: outer => if Named.nameOf entry = name then ⟨outer⟩ else ancestry

theorem close_push (ancestry : Ancestry Entry) (entry : Entry) (name : String) :
    (ancestry.push entry).close name =
      if Named.nameOf entry = name then ancestry else ancestry.push entry :=
  rfl

end Ancestry

end MarkupPath
