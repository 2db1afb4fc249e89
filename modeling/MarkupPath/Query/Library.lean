import MarkupPath.Glob.Matching
import MarkupPath.Json.Written
import MarkupPath.Settings.Reader

/-!
# Libraries

Queries do not depend on how settings are parsed, how a list of results is written
as one document, or what file patterns mean. A `Library` decides this for them.
`Library.standard` has JSON for the first two, and patterns with stars for the last.
-/

namespace MarkupPath.Query

structure Library where
  parseSettings : String → Except Json.Fault Settings
  writeTexts : List String → Except Json.Fault String
  /-- Which paths a file pattern describes, if the text is a pattern. -/
  readPattern : String → Option (String → Bool)

def Library.standard : Library where
  parseSettings := Settings.ofJson
  writeTexts texts := .ok (Json.writeTexts texts)
  readPattern text := (Glob.Pattern.ofText? text).map Glob.Pattern.accepts

end MarkupPath.Query
