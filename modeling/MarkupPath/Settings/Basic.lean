import MarkupPath.NameSet
import MarkupPath.NameTable
import MarkupPath.Text.Blank
import MarkupPath.XPath.Render

/-!
# Settings

What a caller can set once for many queries. Every setting has a default.

How settings are written, and which paths a file pattern describes, is not decided
here. `Settings.read` and `SkipRule.appliesTo` work with any `parse` and any
`readPattern`, which says of each path whether a pattern describes it.
-/

namespace MarkupPath

open XPath

/-- The elements to skip in documents whose path fits a pattern. -/
structure SkipRule where
  filePattern : String
  elements : List String := []
deriving DecidableEq, Repr

namespace SkipRule

/--
The rule is about the document with this path. A rule whose pattern is none is about no document.
-/
def appliesTo (readPattern : String → Option (String → Bool)) (rule : SkipRule) (path : String) :
    Bool :=
  match readPattern rule.filePattern with
  | some describes => describes path
  | none => false

end SkipRule

/-- How the results for several cursors become one text. -/
inductive Joining
  | lines
  | json
deriving DecidableEq, Repr

structure Settings where
  /-- The format of queries that name none. -/
  format : Format := .full
  /-- The templates of the custom format, of which the first counts. -/
  templates : List String := []
  /-- The attributes that can name an element, the most important first. -/
  nameAttributes : List String := ["name"]
  /-- A segment that has a name is shown as its name alone. -/
  nameOnly : Bool := false
  /-- The skip rules count also for queries that do not ask for them. -/
  skipping : Bool := false
  skipRules : List SkipRule := []
  /-- Whether a format may be used, by its name. What is not listed may be used. -/
  enabledFormats : NameTable Bool := .empty
  joining : Joining := .lines
deriving DecidableEq, Repr

namespace Settings

/-- The settings that a text stands for. Blank text stands for the defaults. -/
def read {Fault : Type} (parse : String → Except Fault Settings) (text : String) :
    Except Fault Settings :=
  if text.toList.all Text.isBlank then .ok {} else parse text

def renderOptions (settings : Settings) : RenderOptions where
  template := settings.templates.head?
  nameOnly := settings.nameOnly

/-- The format must not be used. The custom format always may. -/
def refuses (settings : Settings) (format : Format) : Bool :=
  format != .custom && settings.enabledFormats.get? format.name = some false

/--
The elements to skip in the document with this path, by all rules that apply to it. Without a path
there are none, and neither if skipping is off and the caller does not insist.
-/
def skipSetFor (readPattern : String → Option (String → Bool)) (settings : Settings)
    (path : Option String) (force : Bool) : NameSet :=
  if force || settings.skipping then
    match path with
    | some path =>
        (settings.skipRules.filter (·.appliesTo readPattern path)).foldl
          (fun skip rule => skip.extend rule.elements) .empty
    | none => .empty
  else .empty

end Settings

end MarkupPath
