/-!
# Writing JSON

`writeTexts` writes a list of texts as a JSON array with one item per line.
Strings are written as they are, but for quotes, backslashes and the characters
below U+0020.
-/

namespace MarkupPath.Json

def writeChar (character : Char) : List Char :=
  match character with
  | '"' => ['\\', '"']
  | '\\' => ['\\', '\\']
  | '\x08' => ['\\', 'b']
  | '\x0c' => ['\\', 'f']
  | '\n' => ['\\', 'n']
  | '\r' => ['\\', 'r']
  | '\t' => ['\\', 't']
  | other =>
      if other.toNat < 0x20 then
        let code := other.toNat
        ['\\', 'u', '0', '0', Nat.digitChar (code / 0x10), Nat.digitChar (code % 0x10)]
      else [other]

def writeText (text : String) : String :=
  "\"" ++ String.ofList (text.toList.flatMap writeChar) ++ "\""

/-- Texts as a JSON array, each on a line of its own and indented by two spaces. -/
def writeTexts (texts : List String) : String :=
  if texts.isEmpty then "[]"
  else "[\n  " ++ ",\n  ".intercalate (texts.map writeText) ++ "\n]"

end MarkupPath.Json
