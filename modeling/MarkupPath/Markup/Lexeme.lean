import MarkupPath.Markup.Tag

/-!
# The pieces of a tag

The text of a tag falls into pieces: white space, perhaps a slash, white space
again, the name, and the region between the name and the first `>` after it.
`Lexeme.read` finds the pieces after a `<`, and `Lexeme.toList` puts them
together again; `Lexeme.append_of_read` says that nothing is lost between.
-/

namespace MarkupPath

/-- A tag cut into its pieces. -/
structure Lexeme where
  /-- The white space right after `<`. -/
  indent : List Char
  /-- The slash of a closing tag with the white space after it. -/
  slash : Option (List Char)
  name : List Char
  /-- What stands between the name and `>`. -/
  region : List Char
deriving DecidableEq, Repr

namespace Lexeme

open Markup

def opener (lexeme : Lexeme) : List Char :=
  '<' :: lexeme.indent ++
    match lexeme.slash with
    | some spaces => '/' :: spaces
    | none => []

def toList (lexeme : Lexeme) : List Char :=
  lexeme.opener ++ lexeme.name ++ lexeme.region ++ ['>']

/--
A leading slash makes a closing tag, and otherwise a slash right before `>` closes the tag itself.
-/
def kind (lexeme : Lexeme) : TagKind :=
  if lexeme.slash.isSome then .closing
  else if lexeme.region.getLast? = some '/' then .selfClosing
  else .opening

/-- The region without the slash that belongs to the closing bracket. -/
def attributeText (lexeme : Lexeme) : List Char :=
  if lexeme.region.getLast? = some '/' then lexeme.region.dropLast else lexeme.region

def toTag (lexeme : Lexeme) (start : Position) : Tag where
  kind := lexeme.kind
  name := String.ofList lexeme.name
  attributes := Attributes.ofText lexeme.attributeText
  start := start
  raw := String.ofList lexeme.toList

/-- What the text after a `<` turns out to be. -/
inductive Reading
  /-- No name stands where the name of a tag would. -/
  | notATag
  /-- A name, and no `>` in the rest of the text. -/
  | endless
  /-- A tag, and the text after it. -/
  | tag (lexeme : Lexeme) (rest : List Char)

def readName (indent : List Char) (slash : Option (List Char)) : List Char → Reading
  | [] => .notATag
  | first :: rest =>
      if isNameStart first then
        let afterName := rest.dropWhile isNameChar
        if afterName.contains '>' then
          .tag ⟨indent, slash, first :: rest.takeWhile isNameChar, afterName.takeWhile (· != '>')⟩
            ((afterName.dropWhile (· != '>')).drop 1)
        else .endless
      else .notATag

def read (text : List Char) : Reading :=
  let indent := text.takeWhile isSpace
  match text.dropWhile isSpace with
  | '/' :: rest => readName indent (some (rest.takeWhile isSpace)) (rest.dropWhile isSpace)
  | rest => readName indent none rest

theorem dropWhile_eq_cons_of_mem {text : List Char} {mark : Char} (found : mark ∈ text) :
    text.dropWhile (· != mark) = mark :: (text.dropWhile (· != mark)).drop 1 := by
  induction text with
  | nil => simp at found
  | cons first rest ih =>
      by_cases here : first = mark
      · simp [here]
      · have later : mark ∈ rest := (List.mem_cons.mp found).resolve_left (Ne.symm here)
        simpa [here] using ih later

theorem append_of_readName {indent text rest : List Char} {slash : Option (List Char)}
    {lexeme : Lexeme} (found : readName indent slash text = .tag lexeme rest) :
    lexeme.indent = indent ∧ lexeme.slash = slash ∧
      text = lexeme.name ++ lexeme.region ++ ['>'] ++ rest := by
  unfold readName at found
  split at found
  · simp at found
  next first tail =>
    split at found
    · dsimp only at found
      split at found
      next closed =>
        simp only [Reading.tag.injEq] at found
        obtain ⟨rfl, rfl⟩ := found
        have mark := dropWhile_eq_cons_of_mem (List.contains_iff_mem.mp closed)
        refine ⟨rfl, rfl, ?_⟩
        simp only [List.cons_append, List.append_assoc, List.nil_append, List.cons.injEq, true_and]
        rw [← mark, List.takeWhile_append_dropWhile, List.takeWhile_append_dropWhile]
      next => simp at found
    · simp at found

/-- The pieces of a tag and the rest of the text make up the text that was read. -/
theorem append_of_read {text rest : List Char} {lexeme : Lexeme}
    (found : read text = .tag lexeme rest) : '<' :: text = lexeme.toList ++ rest := by
  have spaces := List.takeWhile_append_dropWhile (p := isSpace) (l := text)
  unfold read at found
  dsimp only at found
  split at found
  next tail slashed =>
    have moreSpaces := List.takeWhile_append_dropWhile (p := isSpace) (l := tail)
    obtain ⟨indent, slash, body⟩ := append_of_readName found
    rw [body] at moreSpaces
    rw [slashed, ← moreSpaces] at spaces
    simp only [toList, opener, indent, slash]
    refine (congrArg (List.cons _) spaces.symm).trans ?_
    simp
  next =>
    obtain ⟨indent, slash, body⟩ := append_of_readName found
    rw [body] at spaces
    simp only [toList, opener, indent, slash]
    refine (congrArg (List.cons _) spaces.symm).trans ?_
    simp

theorem length_lt_of_read {text rest : List Char} {lexeme : Lexeme}
    (found : read text = .tag lexeme rest) : rest.length < text.length + 1 := by
  have whole := congrArg List.length (append_of_read found)
  simp only [toList, opener, List.length_append, List.length_cons] at whole
  omega

end Lexeme

end MarkupPath
