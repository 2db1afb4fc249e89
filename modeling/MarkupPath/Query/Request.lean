import MarkupPath.Query.Context
import MarkupPath.Query.Library
import MarkupPath.Text.LineTable

/-!
# Requests

A request comes with the bytes of a document and the text of the settings, and
nothing in it has been checked. The checks are made in a fixed order: the
document, the settings, the name of the format, whether the format is allowed,
whether it has its template. The first that fails decides the error.
-/

namespace MarkupPath.Query

def decodeText (document : ByteArray) : Except Error String :=
  (Utf8.decode document).mapError .invalidUtf8

def readSettings (library : Library) (text : String) : Except Error Settings :=
  (Settings.read library.parseSettings text).mapError .invalidSettings

def readFormat (name : String) : Except Error XPath.Format :=
  match XPath.Format.ofName? name with
  | some format => .ok format
  | none => .error (.unknownFormat name)

def readFormat? : Option String → Except Error (Option XPath.Format)
  | none => .ok none
  | some name => (readFormat name).map some

/-- The part of a request that queries for paths share. -/
structure Request where
  document : ByteArray
  settings : String := ""
  /-- The path of the document, which the skip rules look at. -/
  path : Option String := none

namespace Request

/-- The text and the settings of a request, with the elements to skip. -/
def open? (library : Library) (request : Request) (force : Bool) :
    Except Error (String × Settings × NameSet) := do
  let text ← decodeText request.document
  let settings ← readSettings library request.settings
  .ok (text, settings, settings.skipSetFor library.readPattern request.path force)

/-- The text of a request, and the context for a format. -/
def contextFor (library : Library) (request : Request) (format : Option String) (force : Bool) :
    Except Error (String × Context) := do
  let (text, settings, skip) ← request.open? library force
  let format ← readFormat? format
  let context ← Context.create settings format skip
  .ok (text, context)

def xpathAt (library : Library) (request : Request) (offsets : List Nat) (format : Option String)
    (force : Bool) : Except Error String := do
  let (text, context) ← request.contextFor library format force
  context.xpathsAt library.writeTexts text offsets

def xpathAtEach (library : Library) (request : Request) (offsets : List Nat)
    (format : Option String) : Except Error (List (Option String)) := do
  let (text, context) ← request.contextFor library format false
  .ok (offsets.map (context.xpathAt text))

def segmentsAt (library : Library) (request : Request) (offset : Nat) :
    Except Error (List Segment) := do
  let (text, settings, skip) ← request.open? library false
  Query.segmentsAt text offset settings skip

def locate (library : Library) (request : Request) (path : String) : Except Error Position := do
  let (text, settings, _) ← request.open? library false
  Query.locate text path settings

end Request

def scanTags (document : ByteArray) : Except Error (List Tag) :=
  (decodeText document).map Tag.scan

def offsetAt (document : ByteArray) (line column : Nat) : Except Error Nat :=
  (decodeText document).map fun text => (LineTable.ofText text).offsetAt line column

/-- The steps of a path, of which there has to be one. -/
def parsePath (path : String) : Except Error (List XPath.Step) :=
  let steps := XPath.Step.readPath path
  if steps.isEmpty then .error .invalidXPath else .ok steps

end MarkupPath.Query
