import MarkupPath.Markup.Name
import MarkupPath.Text.Blank
import MarkupPath.Text.Quoted
import MarkupPath.XPath.Step

/-!
# Reading paths

`Step.readPath` reads the text of a path. The text is cut at slashes, and every
piece becomes a step: a tag with a name if it reads `tag[@name='value']`, a tag
with an index if it reads `tag[3]`, and otherwise a tag that is spelled like the
whole piece. So every text is read, though perhaps as tags that no document has.
-/

namespace MarkupPath.XPath

open Text

/-- Cuts `tag[inside]` into the tag and the text inside the brackets. -/
def splitBrackets (piece : List Char) : Option (List Char × List Char) :=
  match piece.takeWhile (· != '['), piece.dropWhile (· != '[') with
  | [], _ => none
  | _, [] => none
  | tag, _ :: rest => if rest.getLast? = some ']' then some (tag, rest.dropLast) else none

def after? (mark : Char) : List Char → Option (List Char)
  | [] => none
  | first :: rest => if first = mark then some rest else none

/-- The text after the word `name`, in any cases. -/
def afterNameWord? (text : List Char) : Option (List Char) :=
  if (text.take 4).map Char.toLower = "name".toList then some (text.drop 4) else none

/-- The text between quotes, either single or double, if at most blanks follow. -/
def readLiteral : List Char → Option (List Char)
  | [] => none
  | quote :: rest =>
      if Markup.isQuote quote then
        match Quoted.read quote rest with
        | some (value, tail) => if tail.all isBlank then some value else none
        | none => none
      else none

/-- The name in `@name = 'value'`. It is not empty. -/
def readName (inside : List Char) : Option (List Char) := do
  let word ← after? '@' (trimStart inside)
  let equals ← afterNameWord? word
  let literal ← after? '=' (trimStart equals)
  let value ← readLiteral (trimStart literal)
  if value.isEmpty then none else some value

/-- The index in brackets: decimal digits of a number below 2⁶⁴. -/
def readIndex (inside : List Char) : Option Nat :=
  if !inside.isEmpty && inside.all Char.isDigit then
    let number := Nat.ofDigitChars 10 inside 0
    if number < UInt64.size then some number else none
  else none

namespace Step

def ofBrackets? (tag inside : List Char) : Option Step :=
  match readName inside with
  | some value => some ⟨String.ofList tag, .name (String.ofList value)⟩
  | none => (readIndex inside).map fun number => ⟨String.ofList tag, .index number⟩

def ofPiece (piece : List Char) : Step :=
  match splitBrackets piece with
  | some (tag, inside) => (ofBrackets? tag inside).getD ⟨String.ofList piece, .first⟩
  | none => ⟨String.ofList piece, .first⟩

/-- The steps of a path. Blanks around the path and empty pieces do not count. -/
def readPath (path : String) : List Step :=
  (((trim path.toList).splitOn '/').filter (!·.isEmpty)).map ofPiece

end Step

end MarkupPath.XPath
