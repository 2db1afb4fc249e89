/-!
# JSON values

A JSON document as far as settings need it: numbers are recognized but keep no
value, and a string may be one that is well written and still no text. That
happens where an escape names half of a surrogate pair and the other half is
missing.
-/

namespace MarkupPath.Json

/-- Why a text cannot be read, or values cannot be written. -/
structure Fault where
  message : String
deriving DecidableEq, Repr

inductive Value
  | null
  | bool (truth : Bool)
  | number
  /-- A string, and its text if its escapes amount to one. -/
  | string (text : Option String)
  | array (items : List Value)
  /-- The fields in the order in which they are written, repeated keys included. -/
  | object (fields : List (Option String × Value))
deriving Repr

namespace Value

def toBool? : Value → Option Bool
  | .bool truth => some truth
  | _ => none

def toText? : Value → Option String
  | .string text => text
  | _ => none

def toItems? : Value → Option (List Value)
  | .array items => some items
  | _ => none

/-- The fields, if the value is an object all of whose keys are texts. -/
def toFields? : Value → Option (List (String × Value))
  | .object fields => fields.mapM fun (key, value) => key.map fun text => (text, value)
  | _ => none

/-- The items as they are read one by one, if the value is an array and all of them can be read. -/
def toList? {Item : Type} (item : Value → Option Item) (value : Value) : Option (List Item) := do
  let items ← value.toItems?
  items.mapM item

def toTexts? : Value → Option (List String) :=
  toList? toText?

end Value

end MarkupPath.Json
