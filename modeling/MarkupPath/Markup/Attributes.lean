import MarkupPath.Markup.Name
import MarkupPath.NameTable
import MarkupPath.Text.Blank

/-!
# Attributes

The attributes of a tag are the `name = value` pairs in the text between the
tag's name and its end. Reading them never fails: what is not part of a pair is
passed over. `readPairs` gives the pairs in the order of the text, and
`Attributes.ofText` collects them in a table, where a repeated name changes the
value but not the order.

A name without a value is passed over as a whole. Nothing is lost by that: a
shorter name that starts inside it ends at the same character and lacks a value
as well.
-/

namespace MarkupPath.Markup

/-- The characters that are taken for an attribute value without quotes. -/
def isBareChar (character : Char) : Bool :=
  !isSpace character && character != '>'

/--
Reads a value: the text up to the matching quote if there is one, and otherwise the characters up to
white space or `>`, an opening quote included. Gives the value and the text after it.
-/
def readValue : List Char → List Char × List Char
  | [] => ([], [])
  | first :: rest =>
      if isQuote first && rest.contains first then
        (rest.takeWhile (· != first), (rest.dropWhile (· != first)).drop 1)
      else ((first :: rest).takeWhile isBareChar, (first :: rest).dropWhile isBareChar)

theorem length_readValue_le (text : List Char) : (readValue text).2.length ≤ text.length := by
  cases text with
  | nil => simp [readValue]
  | cons first rest =>
      have quoted := (List.dropWhile_sublist (l := rest) (· != first)).length_le
      have bare := (List.dropWhile_sublist (l := first :: rest) isBareChar).length_le
      by_cases closed : (isQuote first && rest.contains first) = true
      · simp only [readValue, closed, if_true, List.length_drop, List.length_cons]
        omega
      · simp only [readValue, closed]
        exact bare

/--
The text from the value on, where an equals sign and perhaps white space around it stand first.
-/
def afterEquals? (text : List Char) : Option (List Char) :=
  match text.dropWhile isSpace with
  | '=' :: rest => some (rest.dropWhile isSpace)
  | _ => none

theorem length_lt_of_afterEquals? {text rest : List Char} (found : afterEquals? text = some rest) :
    rest.length < text.length := by
  have spaces := (List.dropWhile_sublist (l := text) isSpace).length_le
  unfold afterEquals? at found
  split at found
  next tail equals =>
    have moreSpaces := (List.dropWhile_sublist (l := tail) isSpace).length_le
    simp only [Option.some.injEq] at found
    subst found
    rw [equals, List.length_cons] at spaces
    omega
  next => simp at found

def readPairs : List Char → List (String × String)
  | [] => []
  | first :: rest =>
      if isNameStart first then
        match _ : afterEquals? (rest.dropWhile isNameChar) with
        | some valueText =>
            (String.ofList (first :: rest.takeWhile isNameChar),
                String.ofList (readValue valueText).1) ::
              readPairs (readValue valueText).2
        | none => readPairs (rest.dropWhile isNameChar)
      else readPairs rest
termination_by text => text.length
decreasing_by
  · rename_i found
    have nameShorter := (List.dropWhile_sublist (l := rest) isNameChar).length_le
    have valueShorter := length_lt_of_afterEquals? found
    have restShorter := length_readValue_le valueText
    simp only [List.length_cons]
    omega
  · have nameShorter := (List.dropWhile_sublist (l := rest) isNameChar).length_le
    simp only [List.length_cons]
    omega
  · simp

theorem readPairs_of_some {first : Char} {rest valueText : List Char}
    (start : isNameStart first = true)
    (found : afterEquals? (rest.dropWhile isNameChar) = some valueText) :
    readPairs (first :: rest) =
      (String.ofList (first :: rest.takeWhile isNameChar),
          String.ofList (readValue valueText).1) ::
        readPairs (readValue valueText).2 := by
  rw [readPairs, if_pos start]
  split
  next found' =>
    rw [found, Option.some.injEq] at found'
    rw [found']
  next missing => exact nomatch found.symm.trans missing

theorem readPairs_of_none {first : Char} {rest : List Char} (start : isNameStart first = true)
    (missing : afterEquals? (rest.dropWhile isNameChar) = none) :
    readPairs (first :: rest) = readPairs (rest.dropWhile isNameChar) := by
  rw [readPairs, if_pos start]
  split
  next found => exact nomatch missing.symm.trans found
  next => rfl

theorem readPairs_of_not_isNameStart {first : Char} {rest : List Char}
    (other : ¬isNameStart first = true) : readPairs (first :: rest) = readPairs rest := by
  rw [readPairs, if_neg other]

end MarkupPath.Markup

namespace MarkupPath

/-- The attributes of a tag: values under distinct names, in the order of first occurrence. -/
abbrev Attributes := NameTable String

namespace Attributes

def ofText (text : List Char) : Attributes :=
  NameTable.ofPairs (Markup.readPairs text)

/-- The value of the first of these names that is present with a value that is not all blank. -/
def firstFilled (attributes : Attributes) (candidates : List String) : Option String :=
  (candidates.filterMap attributes.get?).find? fun value => !value.toList.all Text.isBlank

end Attributes

end MarkupPath
