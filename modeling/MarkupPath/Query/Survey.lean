import MarkupPath.Query.Request

/-!
# Surveys of a text

What all the queries on one text answer together: how the path changes as a
cursor moves through the text, and whether the path of every element leads back
to it.
-/

namespace MarkupPath.Query

/-- The pairs whose second part is not that of the pair before. -/
def changes {Value : Type} [DecidableEq Value] :
    Option Value → List (Nat × Value) → List (Nat × Value)
  | _, [] => []
  | previous, (place, value) :: rest =>
      if previous = some value then changes previous rest
      else (place, value) :: changes (some value) rest

namespace Context

/-- The context of a survey: settings and format by their texts, and the elements to skip. -/
def ofTexts (library : Library) (settings : String) (format : Option String) (skip : NameSet) :
    Except Error Context := do
  let settings ← readSettings library settings
  let format ← readFormat? format
  create settings format skip

/-- The path at the start of the text and wherever it changes, up to two bytes behind the end. -/
def sweep (context : Context) (text : String) : List (Nat × Option String) :=
  changes none ((List.range (text.utf8ByteSize + 3)).map fun offset =>
    (offset, context.xpathAt text offset))

/-- The start tags with the path of their element and the place to which that path leads. -/
def roundTrip (context : Context) (text : String) :
    List (Nat × String × Except Error Position) :=
  ((Tag.scan text).filter (·.isStartTag)).map fun tag =>
    let path := (context.xpathAt text (tag.offset + 1)).getD ""
    (tag.offset, path, locate text path context.settings)

end Context

end MarkupPath.Query
