import MarkupPath.Text.Quoted
import MarkupPath.XPath.Format
import MarkupPath.XPath.Template

/-!
# Paths as text

`Format.render?` writes the segments of a path in a format. Apart from
breadcrumbs and templates, every segment becomes one step that begins with a
slash.
-/

namespace MarkupPath.XPath

/-- What a caller can choose besides the format. -/
structure RenderOptions where
  /-- The template of the custom format. -/
  template : Option String := none
  /-- A segment that has a name is shown as its name alone. -/
  nameOnly : Bool := false
deriving DecidableEq, Repr

/-- The value as it stands between single quotes. -/
def escapeQuotes (value : String) : String :=
  String.ofList (Text.Quoted.double '\'' value.toList)

def fullStep (segment : Segment) : String :=
  "/" ++ segment.tag ++ "[" ++ segment.index.repr ++ "]"

def compactStep (segment : Segment) : String :=
  if 1 < segment.index then fullStep segment else "/" ++ segment.tag

def bareStep (segment : Segment) : String :=
  "/" ++ segment.tag

/-- The tag and the name, and another step where there is no name. -/
def namedStep (nameOnly : Bool) (unnamed : Segment → String) (segment : Segment) : String :=
  match segment.name with
  | some name =>
      if nameOnly then "/" ++ name
      else "/" ++ segment.tag ++ "[@name='" ++ escapeQuotes name ++ "']"
  | none => unnamed segment

/-- The tag, with the name in parentheses where there is one. -/
def crumb (nameOnly : Bool) (segment : Segment) : String :=
  match segment.name with
  | some name => if nameOnly then name else segment.tag ++ " (" ++ name ++ ")"
  | none => segment.tag

/-- The template with the parts of a segment. -/
def templateStep (template : String) (segment : Segment) : String :=
  String.ofList (Template.expand segment template.toList)

/-- The segments in a format. Only the custom format can fail, for want of a template. -/
def Format.render? (format : Format) (options : RenderOptions) (segments : List Segment) :
    Option String :=
  match format with
  | .full => some (String.join (segments.map fullStep))
  | .compact => some (String.join (segments.map compactStep))
  | .namesOnly => some (String.join (segments.map bareStep))
  | .namedFull => some (String.join (segments.map (namedStep options.nameOnly fullStep)))
  | .namedCompact => some (String.join (segments.map (namedStep options.nameOnly compactStep)))
  | .breadcrumb => some (" > ".intercalate (segments.map (crumb options.nameOnly)))
  | .custom =>
      options.template.map fun template => String.join (segments.map (templateStep template))

end MarkupPath.XPath
