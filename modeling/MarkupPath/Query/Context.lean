import MarkupPath.Element.Enclosing
import MarkupPath.Query.Error
import MarkupPath.Settings.Basic
import MarkupPath.XPath.Reader
import MarkupPath.XPath.Search

/-!
# Queries on a text

A context holds what the queries of one call have in common. It exists only for
a format that the settings allow and for which a template is at hand, so a query
in a context fails only for want of elements, or if its results cannot be written.
-/

namespace MarkupPath.Query

/-- The results for several cursors as one text. A single result is left as it is. -/
def join (writeTexts : List String → Except Json.Fault String) (joining : Joining)
    (results : List String) : Except Error String :=
  match results with
  | [] => .error .noResults
  | [single] => .ok single
  | several =>
      match joining with
      | .lines => .ok ("\n".intercalate several)
      | .json => (writeTexts several).mapError .unwritable

/-- What the queries of one call have in common. -/
structure Context where
  settings : Settings
  format : XPath.Format
  skip : NameSet
  allowed : settings.refuses format = false
  templated : format = .custom → settings.templates ≠ []

namespace Context

/-- The context for a format, or for the format of the settings if the caller names none. -/
def create (settings : Settings) (format : Option XPath.Format) (skip : NameSet) :
    Except Error Context :=
  let chosen := format.getD settings.format
  if refused : settings.refuses chosen = true then .error (.formatDisabled chosen)
  else if bare : chosen = .custom ∧ settings.templates = [] then .error .missingTemplate
  else
    .ok
      { settings := settings
        format := chosen
        skip := skip
        allowed := by simpa using refused
        templated := fun custom untemplated => bare ⟨custom, untemplated⟩ }

/-- The segments of the element at an offset. There are none where there is no element. -/
def segmentsAt (context : Context) (text : String) (offset : Nat) : List Segment :=
  Segment.ofPath text (Element.enclosingIn text offset) context.skip context.settings.nameAttributes

def xpathAt (context : Context) (text : String) (offset : Nat) : Option String :=
  if (Element.enclosingIn text offset).isEmpty then none
  else
    context.format.render? context.settings.renderOptions (context.segmentsAt text offset)

/--
The paths at several offsets as one text. Offsets without a path, or with an empty one, do not
count.
-/
def xpathsAt (writeTexts : List String → Except Json.Fault String) (context : Context)
    (text : String) (offsets : List Nat) : Except Error String :=
  join writeTexts context.settings.joining
    ((offsets.filterMap (context.xpathAt text)).filter (!·.isEmpty))

end Context

/-- The segments of the element at an offset. Which formats are allowed does not matter here. -/
def segmentsAt (text : String) (offset : Nat) (settings : Settings) (skip : NameSet) :
    Except Error (List Segment) :=
  let path := Element.enclosingIn text offset
  if path.isEmpty then .error .noElement
  else .ok (Segment.ofPath text path skip settings.nameAttributes)

def locate (text : String) (path : String) (settings : Settings) : Except Error Position :=
  let steps := XPath.Step.readPath path
  if steps.isEmpty then .error .invalidXPath
  else
    match XPath.find (Tag.scan text) steps settings.nameAttributes with
    | some position => .ok position
    | none => .error .notFound

end MarkupPath.Query
