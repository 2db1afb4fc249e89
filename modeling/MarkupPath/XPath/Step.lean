import MarkupPath.Markup.Tag

/-!
# Steps of a path

A step asks for a child with a tag name and says which of the children with that
name is meant: the first, the one with an index, or the first one with a name.
-/

namespace MarkupPath.XPath

/-- Which of the children with a tag name is meant. -/
inductive Choice
  | first
  /-- The one with this index, counted from one. -/
  | index (number : Nat)
  /-- Any whose name is this. -/
  | name (value : String)
deriving DecidableEq, Repr

structure Step where
  tag : String
  choice : Choice
deriving DecidableEq, Repr

namespace Step

/-- The step with an index or a name. If it has both, the name decides. -/
def ofParts (tag : String) (index : Option Nat) (name : Option String) : Step where
  tag := tag
  choice :=
    match name, index with
    | some value, _ => .name value
    | none, some number => .index number
    | none, none => .first

def index? (step : Step) : Option Nat :=
  match step.choice with
  | .index number => some number
  | _ => none

def name? (step : Step) : Option String :=
  match step.choice with
  | .name value => some value
  | _ => none

/-- The step means the element of a start tag that has this index among its siblings. -/
def accepts (step : Step) (nameAttributes : List String) (tag : Tag) (index : Nat) : Bool :=
  tag.name = step.tag &&
    match step.choice with
    | .first => index = 1
    | .index number => index = number
    | .name value => tag.attributes.firstFilled nameAttributes = some value

theorem accepts_iff {step : Step} {nameAttributes : List String} {tag : Tag} {index : Nat} :
    step.accepts nameAttributes tag index = true ↔
      tag.name = step.tag ∧
        match step.choice with
        | .first => index = 1
        | .index number => index = number
        | .name value => tag.attributes.firstFilled nameAttributes = some value := by
  rw [accepts, Bool.and_eq_true, decide_eq_true_eq]
  apply and_congr_right
  intro _
  cases step.choice <;> simp

end Step

end MarkupPath.XPath
