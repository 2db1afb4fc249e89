import MarkupPath.Json.Value
import MarkupPath.Text.Utf8
import MarkupPath.XPath.Format

/-!
# Errors of queries

Why a query has no answer.
-/

namespace MarkupPath.Query

/-- Why a query has no answer. -/
inductive Error
  /-- No element is around the offset. -/
  | noElement
  /-- None of several offsets has a path that shows anything. -/
  | noResults
  /-- The path to look for has no steps. -/
  | invalidXPath
  /-- No element is where the path leads. -/
  | notFound
  /-- The custom format is asked for, and no template is set. -/
  | missingTemplate
  /-- The settings refuse the format. -/
  | formatDisabled (format : XPath.Format)
  /-- No format has this name. -/
  | unknownFormat (given : String)
  /-- The document is no text. -/
  | invalidUtf8 (fault : Utf8.Fault)
  /-- The settings are not written as they should be. -/
  | invalidSettings (fault : Json.Fault)
  /-- The results for several cursors cannot be written as one document. -/
  | unwritable (fault : Json.Fault)
deriving DecidableEq, Repr

def Error.message : Error → String
  | .noElement => "unable to compute XPath for the current selection"
  | .noResults => "unable to compute XPath for any selection"
  | .invalidXPath => "invalid or empty XPath"
  | .notFound => "no element matching the specified XPath was found"
  | .missingTemplate => "no custom format template configured"
  | .formatDisabled format => "XPath format '" ++ format.name ++ "' is disabled"
  | .unknownFormat given => "unknown XPath format: " ++ given
  | .invalidUtf8 fault => "document is not valid UTF-8: " ++ fault.message
  | .invalidSettings fault => "invalid settings: " ++ fault.message
  | .unwritable fault => "failed to encode results: " ++ fault.message

end MarkupPath.Query
