import MarkupPath.Element.Basic
import MarkupPath.Markup.Scan
import MarkupPath.NameSet

/-!
# Sibling indexes

The index of an element is its place, counted from one, among the children of
its parent that have its name. The children are found by reading the text again
from the parent's start tag, with an ancestry of what is open inside the parent:
a start tag met while nothing is open there starts a child.

Counting ends with the parent: at its known end, or at a closing tag of its name
that ends nothing inside it. An element that is not found gets the index one, so
an index is never zero.
-/

namespace MarkupPath.Element

/-- The tag stands beyond the end of the parent, if the parent's start tag tells where it ends. -/
def isBeyond (parent : Element) (tag : Tag) : Bool :=
  match parent.stop with
  | some stop => stop ≤ tag.offset
  | none => false

/-- What is open inside the parent after a tag. -/
def nestedAfter (nested : Ancestry String) (tag : Tag) : Ancestry String :=
  match tag.kind with
  | .opening => nested.push tag.name
  | .closing => nested.close tag.name
  | .selfClosing => nested

def countsFor (target : Element) (skip : NameSet) (nested : Ancestry String) (tag : Tag) : Bool :=
  tag.isStartTag && nested.isEmpty && tag.name = target.name && !skip.contains tag.name

/--
The index of the target in the tags from its parent's start tag on, when `nested` is open inside the
parent and `count` children have been counted.
-/
def indexAmong (parent target : Element) (skip : NameSet) (nested : Ancestry String) (count : Nat) :
    List Tag → Option Nat
  | [] => none
  | tag :: rest =>
      if tag.offset = parent.offset then indexAmong parent target skip nested count rest
      else if parent.isBeyond tag then none
      else if tag.kind = .closing && nested.isEmpty && tag.name = parent.name then none
      else if target.countsFor skip nested tag then
        if tag.offset = target.offset then some (count + 1)
        else indexAmong parent target skip (nestedAfter nested tag) (count + 1) rest
      else indexAmong parent target skip (nestedAfter nested tag) count rest

/-- The index of the element at a place of a path, among its siblings of the same name. -/
def siblingIndex (text : String) (path : List Element) (place : Nat) (skip : NameSet) : Nat :=
  match place with
  | 0 => 1
  | above + 1 =>
      match path[above]?, path[above + 1]? with
      | some parent, some target =>
          (indexAmong parent target skip .empty 0 (Tag.scanFrom text parent.offset)).getD 1
      | _, _ => 1

theorem lt_of_indexAmong {parent target : Element} {skip : NameSet} {nested : Ancestry String}
    {count index : Nat} {tags : List Tag}
    (found : indexAmong parent target skip nested count tags = some index) : count < index := by
  induction tags generalizing nested count with
  | nil => simp [indexAmong] at found
  | cons tag rest ih =>
      unfold indexAmong at found
      split at found
      · exact ih found
      split at found
      · simp at found
      split at found
      · simp at found
      split at found
      · split at found
        · simp only [Option.some.injEq] at found
          omega
        · exact Nat.lt_of_succ_lt (ih found)
      · exact ih found

theorem siblingIndex_pos (text : String) (path : List Element) (place : Nat) (skip : NameSet) :
    0 < siblingIndex text path place skip := by
  unfold siblingIndex
  split
  · exact Nat.one_pos
  next above =>
    split
    next parent target _ _ =>
      cases found : indexAmong parent target skip .empty 0 (Tag.scanFrom text parent.offset) with
      | none => exact Nat.one_pos
      | some index => exact lt_of_indexAmong found
    next => exact Nat.one_pos

end MarkupPath.Element
