import MarkupPath.Json.Document
import MarkupPath.Settings.Basic

/-!
# Reading settings

Settings are written as a JSON object, or as an array of its values in a fixed
order of the keys. Keys without a meaning are passed over; a key with one may
occur only once, and its value must be of the right kind, so `null` is never
right.
-/

namespace MarkupPath

open Json XPath

namespace Json.Value

/-- The fields of a record with these keys, which may be written as an array of its first values. -/
def toRecord? (keys : List String) (value : Value) : Option (List (String × Value)) :=
  match value with
  | .array items => if items.length ≤ keys.length then some (keys.zip items) else none
  | other => other.toFields?

/-- The name of a choice, alone or as the only key of an object whose value is `null`. -/
def toChoice? : Value → Option String
  | .string text => text
  | .object [(key, .null)] => key
  | _ => none

/-- An object all of whose values are of one kind. Of a repeated key the last value counts. -/
def toTable? {Item : Type} (item : Value → Option Item) (value : Value) :
    Option (NameTable Item) := do
  let fields ← value.toFields?
  let pairs ← fields.mapM fun (key, content) => (item content).map fun read => (key, read)
  some (NameTable.ofPairs pairs)

end Json.Value

namespace Settings

/--
The value of a key of a record, or the default where the key is missing. There is none if the key is
repeated or the value is not of the right kind.
-/
def fieldOr {Item : Type} (missing : Option Item) (fields : List (String × Value)) (key : String)
    (item : Value → Option Item) : Option Item :=
  match fields.filter (·.1 = key) with
  | [] => missing
  | [(_, value)] => item value
  | _ => none

/-- The format with this name in settings. Three of the names have a second spelling. -/
def formatOfName? (name : String) : Option Format :=
  match name with
  | "names_only" => some .namesOnly
  | "named_full" => some .namedFull
  | "named_compact" => some .namedCompact
  | _ => Format.all.find? (·.name = name)

def joiningOfName? (name : String) : Option Joining :=
  match name with
  | "lines" => some .lines
  | "json" => some .json
  | _ => none

/-- Reads a skip rule. Its pattern must be given. -/
def readSkipRule (value : Value) : Option SkipRule := do
  let fields ← value.toRecord? ["filePattern", "elementsToSkip"]
  let filePattern ← fieldOr none fields "filePattern" Value.toText?
  let elements ← fieldOr (some []) fields "elementsToSkip" Value.toTexts?
  some ⟨filePattern, elements⟩

/-- The keys of settings, in the order in which an array gives their values. -/
def keys : List String :=
  ["format", "customFormatTemplates", "nameAttributes", "nameOnly", "enableElementSkipping",
    "skipRules", "enableFormats", "multicursorFormat"]

def ofValue? (value : Value) : Option Settings := do
  let fields ← value.toRecord? keys
  let defaults : Settings := {}
  let format ← fieldOr (some defaults.format) fields "format" (·.toChoice? >>= formatOfName?)
  let templates ← fieldOr (some defaults.templates) fields "customFormatTemplates" Value.toTexts?
  let names ← fieldOr (some defaults.nameAttributes) fields "nameAttributes" Value.toTexts?
  let nameOnly ← fieldOr (some defaults.nameOnly) fields "nameOnly" Value.toBool?
  let skipping ← fieldOr (some defaults.skipping) fields "enableElementSkipping" Value.toBool?
  let rules ← fieldOr (some defaults.skipRules) fields "skipRules" (Value.toList? readSkipRule)
  let enabled ←
    fieldOr (some defaults.enabledFormats) fields "enableFormats" (Value.toTable? Value.toBool?)
  let joining ←
    fieldOr (some defaults.joining) fields "multicursorFormat" (·.toChoice? >>= joiningOfName?)
  some ⟨format, templates, names, nameOnly, skipping, rules, enabled, joining⟩

def ofJson (text : String) : Except Fault Settings :=
  match Value.ofText? text with
  | none => .error ⟨"not a JSON document"⟩
  | some value =>
      match ofValue? value with
      | none => .error ⟨"not a document of settings"⟩
      | some settings => .ok settings

end Settings

end MarkupPath
