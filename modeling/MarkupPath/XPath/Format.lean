/-!
# Formats of paths

The ways in which a path can be shown. Callers may write the name of a format in
any mixture of cases and with underscores, so that `names_only` and `NamesOnly`
both stand for `namesOnly`.
-/

namespace MarkupPath.XPath

inductive Format
  /-- Every element with its index. -/
  | full
  /-- An index only where it is not one. -/
  | compact
  /-- Tag names alone. -/
  | namesOnly
  /-- The name of an element where it has one, and otherwise as in `full`. -/
  | namedFull
  /-- The name of an element where it has one, and otherwise as in `compact`. -/
  | namedCompact
  /-- Tag names, with the names of elements in parentheses, and `>` between the elements. -/
  | breadcrumb
  | custom
deriving DecidableEq, Repr

namespace Format

def all : List Format :=
  [.full, .compact, .namesOnly, .namedFull, .namedCompact, .breadcrumb, .custom]

/-- The name of the format in settings. -/
def name : Format → String
  | .full => "full"
  | .compact => "compact"
  | .namesOnly => "namesOnly"
  | .namedFull => "namedFull"
  | .namedCompact => "namedCompact"
  | .breadcrumb => "breadcrumb"
  | .custom => "custom"

/-- The characters that tell one format name from another. -/
def significant (name : String) : List Char :=
  (name.toList.filter (· != '_')).map Char.toLower

/-- The format that a caller means by a name, whatever its cases and underscores. -/
def ofName? (given : String) : Option Format :=
  all.find? fun format => significant format.name = significant given

end Format

end MarkupPath.XPath
