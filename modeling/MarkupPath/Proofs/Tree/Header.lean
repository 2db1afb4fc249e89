import Mathlib.Data.List.Nodup
import MarkupPath.Proofs.Markup.Reading

/-!
# The tags of a tree's elements

An element of a tree has a header: its name and its attributes, as they are
written in its tags. The header's fields say what keeps the tags readable, so
every header that can be built is read back: the tag with the kind, the name and
the attributes that were written.
-/

namespace MarkupPath

namespace Tree

/-- An attribute whose value can stand between double quotes in a tag. -/
structure Attribute where
  name : List Char
  value : List Char
  isName_name : Markup.IsName name
  unquoted : '"' ∉ value
  unclosed : '>' ∉ value

/-- The name and the attributes of an element. -/
structure Header where
  name : List Char
  attributes : List Attribute
  isName_name : Markup.IsName name
  distinct : (attributes.map (·.name)).Nodup

/-- The attribute as a tag holds it, with a space before it. -/
def Attribute.write (entry : Attribute) : List Char :=
  ' ' :: (entry.name ++ '=' :: '"' :: (entry.value ++ ['"']))

/-- The name and the value of the attribute. -/
def Attribute.pair (entry : Attribute) : String × String :=
  (String.ofList entry.name, String.ofList entry.value)

namespace Header

/-- The attributes as the start tag holds them. -/
def attributeText (header : Header) : List Char :=
  header.attributes.flatMap Attribute.write

/-- The start tag of the element. Without children, it closes itself. -/
def startText (header : Header) (childless : Bool) : List Char :=
  '<' :: (header.name ++ header.attributeText ++ if childless then ['/', '>'] else ['>'])

/-- The end tag of the element. -/
def endText (header : Header) : List Char :=
  '<' :: '/' :: (header.name ++ ['>'])

/-- The value of an attribute, if the element has it and its value is not all blank. -/
def filled? (header : Header) (name : String) : Option String :=
  ((header.attributes.map Attribute.pair).lookup name).filter fun value =>
    !value.toList.all Text.isBlank

/-- The value of the first of these attributes that the element has with a value not all blank. -/
def firstFilled (header : Header) (names : List String) : Option String :=
  names.findSome? header.filled?

/-- The pieces of the start tag. -/
def startLexeme (header : Header) (childless : Bool) : Lexeme where
  indent := []
  slash := none
  name := header.name
  region := header.attributeText ++ if childless then ['/'] else []

/-- The pieces of the end tag. -/
def endLexeme (header : Header) : Lexeme where
  indent := []
  slash := some []
  name := header.name
  region := []

/-- The start tag at a position. -/
def startTag (header : Header) (childless : Bool) (position : Position) : Tag :=
  (header.startLexeme childless).toTag position

/-- The end tag at a position. -/
def endTag (header : Header) (position : Position) : Tag :=
  header.endLexeme.toTag position

theorem toList_startLexeme (header : Header) (childless : Bool) :
    (header.startLexeme childless).toList = header.startText childless := by
  cases childless <;> simp [startLexeme, Lexeme.toList, Lexeme.opener, startText]

theorem toList_endLexeme (header : Header) : header.endLexeme.toList = header.endText := by
  simp [endLexeme, Lexeme.toList, Lexeme.opener, endText]

theorem not_mem_attributeText (header : Header) : '>' ∉ header.attributeText := by
  intro member
  rcases List.mem_flatMap.mp member with ⟨entry, -, inEntry⟩
  have inName : '>' ∉ entry.name := entry.isName_name.not_mem (by decide)
  simp [Attribute.write, inName, entry.unclosed] at inEntry

theorem head?_attributeText (header : Header) {mark : Char}
    (first : header.attributeText.head? = some mark) : mark = ' ' := by
  unfold attributeText at first
  cases entries : header.attributes with
  | nil => simp [entries] at first
  | cons entry rest =>
      simp only [entries, List.flatMap_cons, Attribute.write, List.cons_append, List.head?_cons,
        Option.some.injEq] at first
      exact first.symm

theorem getLast?_attributeText (header : Header) {mark : Char}
    (last : header.attributeText.getLast? = some mark) : mark = '"' := by
  unfold attributeText at last
  rcases List.eq_nil_or_concat header.attributes with entries | ⟨front, entry, entries⟩
  · simp [entries] at last
  · simp only [entries, List.concat_eq_append, List.flatMap_append, List.flatMap_cons,
      List.flatMap_nil, List.append_nil, Attribute.write, ← List.cons_append, ← List.append_assoc,
      List.getLast?_concat, Option.some.injEq] at last
    exact last.symm

theorem read_start (header : Header) (childless : Bool) (rest : List Char) :
    Lexeme.read (header.name ++ ((header.startLexeme childless).region ++ '>' :: rest)) =
      .tag (header.startLexeme childless) rest := by
  rw [Lexeme.read_name header.isName_name]
  apply Lexeme.readName_append [] none header.isName_name
  · cases childless <;> simp [startLexeme, header.not_mem_attributeText]
  · intro mark first
    rw [startLexeme, List.head?_append, Option.or_eq_some_iff] at first
    rcases first with inAttributes | ⟨-, slash⟩
    · rw [header.head?_attributeText inAttributes]
      decide
    · cases childless with
      | true =>
          rw [← Option.some.inj slash]
          decide
      | false => exact nomatch slash

theorem scanAt_startText (header : Header) (childless : Bool) (position : Position)
    (rest : List Char) :
    Tag.scanAt position (header.startText childless ++ rest) =
      header.startTag childless position ::
        Tag.scanAt (position.advanceOver (header.startText childless)) rest := by
  have spelled : header.startText childless ++ rest =
      '<' :: (header.name ++ ((header.startLexeme childless).region ++ '>' :: rest)) := by
    cases childless <;> simp [startText, startLexeme]
  rw [spelled, Tag.scanAt_of_tag (header.read_start childless rest), toList_startLexeme]
  rfl

theorem scanAt_endText (header : Header) (position : Position) (rest : List Char) :
    Tag.scanAt position (header.endText ++ rest) =
      header.endTag position :: Tag.scanAt (position.advanceOver header.endText) rest := by
  have spelled : header.endText ++ rest = '<' :: '/' :: (header.name ++ ([] ++ '>' :: rest)) := by
    simp [endText]
  have reading : Lexeme.readName [] (some []) (header.name ++ ([] ++ '>' :: rest)) =
      .tag header.endLexeme rest :=
    Lexeme.readName_append [] (some []) header.isName_name (by simp) (by simp) rest
  rw [← Lexeme.read_slash header.isName_name] at reading
  rw [spelled, Tag.scanAt_of_tag reading]
  have pieces : header.endLexeme.toList = header.endText := header.toList_endLexeme
  rw [← pieces]
  rfl

theorem kind_startTag (header : Header) (childless : Bool) (position : Position) :
    (header.startTag childless position).kind = if childless then .selfClosing else .opening := by
  cases childless with
  | true => simp [startTag, Lexeme.toTag, Lexeme.kind, startLexeme]
  | false =>
      have last : header.attributeText.getLast? ≠ some '/' := by
        intro slash
        exact absurd (header.getLast?_attributeText slash) (by decide)
      simp [startTag, Lexeme.toTag, Lexeme.kind, startLexeme, last]

theorem isStartTag_startTag (header : Header) (childless : Bool) (position : Position) :
    (header.startTag childless position).isStartTag = true := by
  cases childless <;> simp [Tag.isStartTag, kind_startTag]

theorem attributeText_startLexeme (header : Header) (childless : Bool) :
    (header.startLexeme childless).attributeText = header.attributeText := by
  cases childless with
  | true => simp [startLexeme, Lexeme.attributeText]
  | false =>
      have last : header.attributeText.getLast? ≠ some '/' := by
        intro slash
        exact absurd (header.getLast?_attributeText slash) (by decide)
      simp [startLexeme, Lexeme.attributeText, last]

theorem readPairs_attributeText (header : Header) :
    Markup.readPairs header.attributeText = header.attributes.map Attribute.pair := by
  rw [attributeText]
  induction header.attributes with
  | nil => simp [Markup.readPairs]
  | cons entry rest ih =>
      have spelled : entry.write ++ rest.flatMap Attribute.write =
          ' ' :: (entry.name ++ '=' :: '"' ::
            (entry.value ++ '"' :: rest.flatMap Attribute.write)) := by
        simp [Attribute.write]
      rw [List.flatMap_cons, spelled, Markup.readPairs_quoted entry.isName_name entry.unquoted, ih]
      rfl

theorem nodup_pairs (header : Header) :
    ((header.attributes.map Attribute.pair).map Prod.fst).Nodup := by
  have names : (header.attributes.map Attribute.pair).map Prod.fst =
      (header.attributes.map (·.name)).map String.ofList := by
    simp [Attribute.pair]
  rw [names]
  exact List.Nodup.map (fun _ _ => String.ofList_injective) header.distinct

theorem firstFilled_startTag (header : Header) (childless : Bool) (position : Position)
    (names : List String) :
    (header.startTag childless position).attributes.firstFilled names = header.firstFilled names := by
  have table : (header.startTag childless position).attributes =
      NameTable.ofPairs (header.attributes.map Attribute.pair) := by
    rw [startTag, Lexeme.toTag, attributeText_startLexeme, Attributes.ofText,
      readPairs_attributeText]
  rw [table, Attributes.firstFilled_eq_findSome?]
  simp only [NameTable.get?_ofPairs_of_nodup header.nodup_pairs]
  rfl

end Header

end Tree

end MarkupPath
