import Mathlib.Data.List.Forall2
import Mathlib.Data.List.TakeWhile
import MarkupPath.Proofs.Markup.Name
import MarkupPath.Proofs.Text.Run
import MarkupPath.XPath.Reader
import MarkupPath.XPath.Render

/-!
# The grammar of steps

A piece of a path between two slashes reads `tag[@name='value']`, or `tag[3]`, or
is a tag as a whole. `Named` and `Indexed` state the first two forms, with all that
may vary in them. Every function of the reader accepts exactly the text of its part
of the form, so a piece is read as a step with a name if and only if it has the
first form, and there is one way at most to see this form in it.
-/

namespace MarkupPath

namespace Text

/-- There are blanks alone in the text. -/
def IsBlanks (text : List Char) : Prop :=
  ∀ character ∈ text, isBlank character = true

instance : DecidablePred IsBlanks :=
  fun text => decidable_of_iff (text.all isBlank = true) (by simp [IsBlanks])

theorem trimStart_cons {first : Char} {rest : List Char} (solid : isBlank first = false) :
    trimStart (first :: rest) = first :: rest := by
  simp [trimStart, solid]

theorem trimStart_append {blanks : List Char} (isBlanks : IsBlanks blanks) {first : Char}
    {rest : List Char} (solid : isBlank first = false) :
    trimStart (blanks ++ first :: rest) = first :: rest := by
  rw [trimStart, List.dropWhile_append_of_pos isBlanks]
  exact trimStart_cons solid

theorem exists_append_trimStart (text : List Char) :
    ∃ blanks, IsBlanks blanks ∧ text = blanks ++ trimStart text :=
  ⟨text.takeWhile isBlank, (longestRun_takeWhile isBlank text).inside,
    List.takeWhile_append_dropWhile.symm⟩

/-- Text is trimmed at the start up to a mark if blanks alone stand before the mark. -/
theorem trimStart_eq_cons_iff {text rest : List Char} {mark : Char} (solid : isBlank mark = false) :
    trimStart text = mark :: rest ↔ ∃ blanks, IsBlanks blanks ∧ text = blanks ++ mark :: rest := by
  constructor
  · intro trimmed
    rcases exists_append_trimStart text with ⟨blanks, isBlanks, split⟩
    rw [trimmed] at split
    exact ⟨blanks, isBlanks, split⟩
  · rintro ⟨blanks, isBlanks, rfl⟩
    exact trimStart_append isBlanks solid

/-- What is left of a text when the blanks at its two ends are gone. -/
structure IsStripped (text stripped : List Char) : Prop where
  around : ∃ before after, IsBlanks before ∧ IsBlanks after ∧ text = before ++ (stripped ++ after)
  first_solid : ∀ character, stripped.head? = some character → isBlank character = false
  last_solid : ∀ character, stripped.getLast? = some character → isBlank character = false

theorem exists_trimEnd_append (text : List Char) :
    ∃ blanks, IsBlanks blanks ∧ text = trimEnd text ++ blanks := by
  rcases exists_append_trimStart text.reverse with ⟨blanks, isBlanks, split⟩
  refine ⟨blanks.reverse, ?_, ?_⟩
  · intro character member
    exact isBlanks character (List.mem_reverse.mp member)
  · rw [trimEnd, ← trimStart, ← List.reverse_append, ← split, List.reverse_reverse]

theorem isStripped_trim (text : List Char) : IsStripped text (trim text) := by
  rcases exists_append_trimStart text with ⟨before, isBefore, split⟩
  rcases exists_trimEnd_append (trimStart text) with ⟨after, isAfter, ended⟩
  refine ⟨⟨before, after, isBefore, isAfter, ?_⟩, ?_, ?_⟩
  · rw [trim, ← ended, ← split]
  · intro character isHead
    apply (longestRun_takeWhile isBlank text).stops
    rw [← trimStart, ended, List.head?_append, ← trim, isHead]
    rfl
  · intro character isLast
    rw [trim, trimEnd, List.getLast?_reverse] at isLast
    exact (longestRun_takeWhile isBlank _).stops character isLast

theorem isBlank_eq_false_of_isQuote {quote : Char} (isQuote : Markup.isQuote quote = true) :
    isBlank quote = false := by
  simp only [Markup.isQuote, Bool.or_eq_true, decide_eq_true_eq] at isQuote
  rcases isQuote with rfl | rfl <;> decide

namespace Quoted

theorem read_double (quote : Char) (text : List Char) {after : List Char}
    (alone : after.head? ≠ some quote) :
    read quote (double quote text ++ quote :: after) = some (text, after) := by
  induction text with
  | nil =>
      cases after with
      | nil => simp [double, read]
      | cons next after =>
          have other : ¬next = quote := by simpa using alone
          simp [double, read, other]
  | cons first text ih =>
      by_cases isQuote : first = quote
      · subst isQuote
        simp [double, read, ih]
      · have more : double quote text ++ quote :: after ≠ [] := by simp
        rcases List.exists_cons_of_ne_nil more with ⟨second, rest, split⟩
        rw [double, if_neg isQuote, List.cons_append, split, read, if_neg isQuote, ← split, ih]
        rfl

/-- A text is read up to the first quote that is not one of a pair. -/
theorem read_eq_some_iff {quote : Char} {text value after : List Char} :
    read quote text = some (value, after) ↔
      text = double quote value ++ quote :: after ∧ after.head? ≠ some quote := by
  constructor
  · intro found
    fun_induction read quote text generalizing value after with
    | case1 => exact nomatch found
    | case2 =>
        simp only [Option.some.injEq, Prod.mk.injEq] at found
        rcases found with ⟨rfl, rfl⟩
        exact ⟨rfl, nofun⟩
    | case3 => exact nomatch found
    | case4 rest ih =>
        rcases Option.map_eq_some_iff.mp found with ⟨⟨inner, tail⟩, inside, parts⟩
        simp only [Prod.mk.injEq] at parts
        rcases parts with ⟨rfl, rfl⟩
        rcases ih inside with ⟨split, alone⟩
        exact ⟨by simp [double, split], alone⟩
    | case5 second rest other =>
        simp only [Option.some.injEq, Prod.mk.injEq] at found
        rcases found with ⟨rfl, rfl⟩
        exact ⟨rfl, by simpa using other⟩
    | case6 first second rest other ih =>
        rcases Option.map_eq_some_iff.mp found with ⟨⟨inner, tail⟩, inside, parts⟩
        simp only [Prod.mk.injEq] at parts
        rcases parts with ⟨rfl, rfl⟩
        rcases ih inside with ⟨split, alone⟩
        exact ⟨by simp [double, other, split], alone⟩
  · rintro ⟨rfl, alone⟩
    exact read_double quote value alone

end Quoted

end Text

namespace XPath

open Text

/-- The piece is a tag with something in brackets behind it. -/
structure Brackets (piece tag inside : List Char) : Prop where
  split : piece = tag ++ '[' :: (inside ++ [']'])
  filled : tag ≠ []
  /-- The brackets open at the first place where they can. -/
  whole : '[' ∉ tag

/--
The text reads `@name='value'`: the word in any cases, the value in quotes of either kind with each
of these quotes in it doubled, and blanks anywhere between.
-/
def SpellsName (inside value : List Char) : Prop :=
  ∃ before word between behind quote after,
    inside = before ++ '@' :: (word ++ (between ++ '=' :: (behind ++
      quote :: (Quoted.double quote value ++ quote :: after)))) ∧
    IsBlanks before ∧ word.map Char.toLower = "name".toList ∧ IsBlanks between ∧
    IsBlanks behind ∧ Markup.isQuote quote = true ∧ IsBlanks after

/-- The text is a number below 2⁶⁴ in decimal digits. -/
def SpellsIndex (inside : List Char) (number : Nat) : Prop :=
  inside ≠ [] ∧ (∀ character ∈ inside, character.isDigit = true) ∧
    Nat.ofDigitChars 10 inside 0 = number ∧ number < UInt64.size

theorem splitBrackets_eq_some_iff {piece tag inside : List Char} :
    splitBrackets piece = some (tag, inside) ↔ Brackets piece tag inside := by
  constructor
  · intro found
    have longest := longestRun_takeWhile (· != '[') piece
    have split := List.takeWhile_append_dropWhile (p := (· != '[')) (l := piece)
    cases front : piece.takeWhile (· != '[') with
    | nil => simp [splitBrackets, front] at found
    | cons first more =>
        cases back : piece.dropWhile (· != '[') with
        | nil => simp [splitBrackets, front, back] at found
        | cons bracket rest =>
            rw [front, back] at split longest
            simp only [splitBrackets, front, back, Option.ite_none_right_eq_some, Option.some.injEq,
              Prod.mk.injEq] at found
            rcases found with ⟨closed, rfl, rfl⟩
            have isBracket : bracket = '[' := by simpa using longest.stops bracket rfl
            have whole : '[' ∉ first :: more := fun member => by simpa using longest.inside _ member
            rcases List.getLast?_eq_some_iff.mp closed with ⟨inside, rfl⟩
            refine ⟨?_, List.cons_ne_nil _ _, whole⟩
            rw [List.dropLast_concat, ← isBracket, split]
  · rintro ⟨rfl, filled, whole⟩
    have longest := longestRun_of_not_mem whole (inside ++ [']'])
    rw [splitBrackets, longest.takeWhile_append, longest.dropWhile_append]
    cases tag with
    | nil => exact absurd rfl filled
    | cons first rest => simp

theorem after?_eq_some_iff {mark : Char} {text rest : List Char} :
    after? mark text = some rest ↔ text = mark :: rest := by
  cases text with
  | nil => simp [after?]
  | cons first tail => simp [after?]

theorem afterNameWord?_eq_some_iff {text rest : List Char} :
    afterNameWord? text = some rest ↔
      ∃ word, word.map Char.toLower = "name".toList ∧ text = word ++ rest := by
  rw [afterNameWord?, Option.ite_none_right_eq_some, Option.some.injEq]
  constructor
  · rintro ⟨isWord, rfl⟩
    exact ⟨text.take 4, isWord, (List.take_append_drop 4 text).symm⟩
  · rintro ⟨word, isWord, rfl⟩
    have length : word.length = 4 := by simpa using congrArg List.length isWord
    rw [← length, List.take_left, List.drop_left]
    exact ⟨isWord, rfl⟩

theorem readLiteral_eq_some_iff {text value : List Char} :
    readLiteral text = some value ↔
      ∃ quote after, Markup.isQuote quote = true ∧ IsBlanks after ∧
        text = quote :: (Quoted.double quote value ++ quote :: after) := by
  constructor
  · intro found
    cases text with
    | nil => simp [readLiteral] at found
    | cons quote rest =>
        rw [readLiteral] at found
        split at found
        next isQuote =>
          split at found
          next inner after unquoted =>
            rw [Option.ite_none_right_eq_some, Option.some.injEq] at found
            rcases found with ⟨blanks, rfl⟩
            have split := (Quoted.read_eq_some_iff.mp unquoted).1
            exact ⟨quote, after, isQuote, List.all_eq_true.mp blanks, by rw [split]⟩
          next => cases found
        next => cases found
  · rintro ⟨quote, after, isQuote, blanks, rfl⟩
    have alone : after.head? ≠ some quote := by
      intro isHead
      have blank := blanks quote (List.mem_of_head? isHead)
      rw [isBlank_eq_false_of_isQuote isQuote] at blank
      cases blank
    rw [readLiteral, if_pos isQuote, Quoted.read_double quote value alone]
    exact if_pos (List.all_eq_true.mpr blanks)

/-- A name is read exactly from what spells it. -/
theorem readName_eq_some_iff {inside value : List Char} :
    readName inside = some value ↔ value ≠ [] ∧ SpellsName inside value := by
  constructor
  · intro found
    unfold readName at found
    rcases Option.bind_eq_some_iff.mp found with ⟨word, marked, found⟩
    rcases Option.bind_eq_some_iff.mp found with ⟨equals, worded, found⟩
    rcases Option.bind_eq_some_iff.mp found with ⟨literal, equated, found⟩
    rcases Option.bind_eq_some_iff.mp found with ⟨given, quoted, found⟩
    split at found
    · exact nomatch found
    next filled =>
      rcases Option.some.inj found with rfl
      rw [after?_eq_some_iff, trimStart_eq_cons_iff (by decide)] at marked equated
      rcases marked with ⟨before, isBefore, rfl⟩
      rcases afterNameWord?_eq_some_iff.mp worded with ⟨name, isName, rfl⟩
      rcases equated with ⟨between, isBetween, rfl⟩
      rcases readLiteral_eq_some_iff.mp quoted with ⟨quote, after, isQuote, isAfter, literally⟩
      rw [trimStart_eq_cons_iff (isBlank_eq_false_of_isQuote isQuote)] at literally
      rcases literally with ⟨behind, isBehind, rfl⟩
      exact ⟨by simpa using filled, before, name, between, behind, quote, after, rfl, isBefore,
        isName, isBetween, isBehind, isQuote, isAfter⟩
  · rintro ⟨filled, before, word, between, behind, quote, after, rfl, isBefore, isWord, isBetween,
      isBehind, isQuote, isAfter⟩
    have worded : ∀ rest, afterNameWord? (word ++ rest) = some rest :=
      fun rest => afterNameWord?_eq_some_iff.mpr ⟨word, isWord, rfl⟩
    have literal : readLiteral (quote :: (Quoted.double quote value ++ quote :: after)) =
        some value :=
      readLiteral_eq_some_iff.mpr ⟨quote, after, isQuote, isAfter, rfl⟩
    have solid := isBlank_eq_false_of_isQuote isQuote
    have marks : isBlank '@' = false ∧ isBlank '=' = false := by decide
    simp [readName, trimStart_append isBefore marks.1, trimStart_append isBetween marks.2,
      trimStart_append isBehind solid, after?, worded, literal, filled]

theorem readIndex_eq_some_iff {inside : List Char} {number : Nat} :
    readIndex inside = some number ↔ SpellsIndex inside number := by
  unfold readIndex SpellsIndex
  constructor
  · intro found
    split at found
    next digits =>
      rw [Option.ite_none_right_eq_some, Option.some.injEq] at found
      rw [Bool.and_eq_true, Bool.not_eq_true', List.isEmpty_eq_false_iff,
        List.all_eq_true] at digits
      rcases found with ⟨bound, rfl⟩
      exact ⟨digits.1, digits.2, rfl, bound⟩
    next => exact nomatch found
  · rintro ⟨filled, digits, rfl, bound⟩
    have isNumber : (!inside.isEmpty && inside.all Char.isDigit) = true := by
      rw [Bool.and_eq_true, Bool.not_eq_true', List.isEmpty_eq_false_iff, List.all_eq_true]
      exact ⟨filled, digits⟩
    rw [if_pos isNumber]
    exact if_pos bound

namespace Step

/-- The piece has the form of a tag with a name. -/
def IsNamed (piece : List Char) (tag value : String) : Prop :=
  value ≠ "" ∧ ∃ inside, Brackets piece tag.toList inside ∧ SpellsName inside value.toList

/-- The piece has the form of a tag with an index. -/
def IsIndexed (piece : List Char) (tag : String) (number : Nat) : Prop :=
  ∃ inside, Brackets piece tag.toList inside ∧ SpellsIndex inside number

/-- What a piece of one of the three forms stands for. -/
structure Reads (piece : List Char) (step : Step) : Prop where
  name_iff : ∀ tag value, step = ⟨tag, .name value⟩ ↔ IsNamed piece tag value
  index_iff : ∀ tag number, step = ⟨tag, .index number⟩ ↔
    (∀ other value, ¬IsNamed piece other value) ∧ IsIndexed piece tag number
  first_iff : ∀ tag, step = ⟨tag, .first⟩ ↔
    (∀ other value, ¬IsNamed piece other value) ∧ (∀ other number, ¬IsIndexed piece other number) ∧
      tag = String.ofList piece

theorem ofPiece_of_brackets {piece tag inside : List Char} (brackets : Brackets piece tag inside) :
    ofPiece piece = (ofBrackets? tag inside).getD ⟨String.ofList piece, .first⟩ := by
  rw [ofPiece, splitBrackets_eq_some_iff.mpr brackets]

theorem isNamed_of_readName {piece tag inside value : List Char}
    (brackets : Brackets piece tag inside) (named : readName inside = some value) :
    IsNamed piece (String.ofList tag) (String.ofList value) := by
  rcases readName_eq_some_iff.mp named with ⟨filled, spelled⟩
  refine ⟨by simpa using filled, inside, ?_, ?_⟩
  · rwa [String.toList_ofList]
  · rwa [String.toList_ofList]

section Forms

variable {piece : List Char} {tag value : String} {number : Nat}

theorem ofPiece_of_named (named : IsNamed piece tag value) :
    ofPiece piece = ⟨tag, .name value⟩ := by
  rcases named with ⟨filled, inside, brackets, spelled⟩
  have some_value : value.toList ≠ [] := by simpa using filled
  rw [ofPiece_of_brackets brackets, ofBrackets?,
    readName_eq_some_iff.mpr ⟨some_value, spelled⟩]
  simp

theorem IsNamed.unique {other otherValue : String} (named : IsNamed piece tag value)
    (otherNamed : IsNamed piece other otherValue) : tag = other ∧ value = otherValue := by
  have same := (ofPiece_of_named named).symm.trans (ofPiece_of_named otherNamed)
  simpa using same

theorem ofPiece_of_indexed (unnamed : ∀ other value, ¬IsNamed piece other value)
    (indexed : IsIndexed piece tag number) : ofPiece piece = ⟨tag, .index number⟩ := by
  rcases indexed with ⟨inside, brackets, spelled⟩
  rw [ofPiece_of_brackets brackets, ofBrackets?]
  cases named : readName inside with
  | some value => exact absurd (isNamed_of_readName brackets named) (unnamed _ _)
  | none => simp [readIndex_eq_some_iff.mpr spelled]

theorem ofPiece_of_bare (unnamed : ∀ other value, ¬IsNamed piece other value)
    (unindexed : ∀ other number, ¬IsIndexed piece other number) :
    ofPiece piece = ⟨String.ofList piece, .first⟩ := by
  cases cut : splitBrackets piece with
  | none => rw [ofPiece, cut]
  | some parts =>
      rcases parts with ⟨tag, inside⟩
      have brackets := splitBrackets_eq_some_iff.mp cut
      rw [ofPiece_of_brackets brackets, ofBrackets?]
      cases named : readName inside with
      | some value => exact absurd (isNamed_of_readName brackets named) (unnamed _ _)
      | none =>
          cases indexed : readIndex inside with
          | none => rfl
          | some number =>
              refine absurd ⟨inside, ?_, readIndex_eq_some_iff.mp indexed⟩
                (unindexed (String.ofList tag) number)
              rwa [String.toList_ofList]

/-- A piece is read by the first of the three forms that it has. -/
theorem ofPiece_cases (piece : List Char) :
    (∃ tag value, IsNamed piece tag value ∧ ofPiece piece = ⟨tag, .name value⟩) ∨
      (∀ other value, ¬IsNamed piece other value) ∧
        ((∃ tag number, IsIndexed piece tag number ∧ ofPiece piece = ⟨tag, .index number⟩) ∨
          (∀ other number, ¬IsIndexed piece other number) ∧
            ofPiece piece = ⟨String.ofList piece, .first⟩) := by
  by_cases someName : ∃ tag value, IsNamed piece tag value
  · rcases someName with ⟨tag, value, named⟩
    exact Or.inl ⟨tag, value, named, ofPiece_of_named named⟩
  · have unnamed : ∀ other value, ¬IsNamed piece other value :=
      fun other value named => someName ⟨other, value, named⟩
    refine Or.inr ⟨unnamed, ?_⟩
    by_cases someIndex : ∃ tag number, IsIndexed piece tag number
    · rcases someIndex with ⟨tag, number, indexed⟩
      exact Or.inl ⟨tag, number, indexed, ofPiece_of_indexed unnamed indexed⟩
    · have unindexed : ∀ other number, ¬IsIndexed piece other number :=
        fun other number indexed => someIndex ⟨other, number, indexed⟩
      exact Or.inr ⟨unindexed, ofPiece_of_bare unnamed unindexed⟩

theorem ofPiece_eq_name_iff :
    ofPiece piece = ⟨tag, .name value⟩ ↔ IsNamed piece tag value := by
  constructor
  · intro read
    rcases ofPiece_cases piece with
      ⟨other, given, named, same⟩ | ⟨-, ⟨other, number, -, same⟩ | ⟨-, same⟩⟩
    · cases read.symm.trans same
      exact named
    · exact nomatch read.symm.trans same
    · exact nomatch read.symm.trans same
  · exact ofPiece_of_named

theorem ofPiece_eq_index_iff :
    ofPiece piece = ⟨tag, .index number⟩ ↔
      (∀ other value, ¬IsNamed piece other value) ∧ IsIndexed piece tag number := by
  constructor
  · intro read
    rcases ofPiece_cases piece with
      ⟨other, given, -, same⟩ | ⟨unnamed, ⟨other, given, indexed, same⟩ | ⟨-, same⟩⟩
    · exact nomatch read.symm.trans same
    · cases read.symm.trans same
      exact ⟨unnamed, indexed⟩
    · exact nomatch read.symm.trans same
  · rintro ⟨unnamed, indexed⟩
    exact ofPiece_of_indexed unnamed indexed

theorem ofPiece_eq_first_iff :
    ofPiece piece = ⟨tag, .first⟩ ↔
      (∀ other value, ¬IsNamed piece other value) ∧
        (∀ other number, ¬IsIndexed piece other number) ∧ tag = String.ofList piece := by
  constructor
  · intro read
    rcases ofPiece_cases piece with
      ⟨other, given, -, same⟩ | ⟨unnamed, ⟨other, given, -, same⟩ | ⟨unindexed, same⟩⟩
    · exact nomatch read.symm.trans same
    · exact nomatch read.symm.trans same
    · cases read.symm.trans same
      exact ⟨unnamed, unindexed, rfl⟩
  · rintro ⟨unnamed, unindexed, rfl⟩
    exact ofPiece_of_bare unnamed unindexed

end Forms

theorem reads_ofPiece (piece : List Char) : Reads piece (ofPiece piece) :=
  ⟨fun _ _ => ofPiece_eq_name_iff, fun _ _ => ofPiece_eq_index_iff,
    fun _ => ofPiece_eq_first_iff⟩

theorem isNamed_of_quoted {tag value : String} (filled : tag ≠ "") (whole : '[' ∉ tag.toList)
    (some_value : value ≠ "") :
    IsNamed (tag.toList ++ '[' :: ("@name='".toList ++ Quoted.double '\'' value.toList ++ ['\''] ++
      [']'])) tag value := by
  refine ⟨some_value, _, ⟨rfl, by simpa using filled, whole⟩, ?_⟩
  refine ⟨[], "name".toList, [], [], '\'', [], by simp, ?_⟩
  simp [IsBlanks, Markup.isQuote]

theorem ofPiece_escapeQuotes {tag value : String} (filled : tag ≠ "") (whole : '[' ∉ tag.toList)
    (some_value : value ≠ "") :
    ofPiece (tag ++ "[@name='" ++ escapeQuotes value ++ "']").toList = ⟨tag, .name value⟩ := by
  have named := isNamed_of_quoted filled whole some_value
  rw [← ofPiece_of_named named]
  simp [escapeQuotes]

/--
A path is cut at the slashes when the blanks around it are gone. Every piece that is not empty is
read as a step, by its form: a tag with a name, else a tag with an index, else a tag as a whole. A
piece is a tag with a name in one way at most, and a name that is written with its quotes doubled is
read back.
-/
theorem reads_readPath (path : String) :
    (∃ stripped, IsStripped path.toList stripped ∧
        List.Forall₂ Reads ((stripped.splitOn '/').filter (!·.isEmpty)) (readPath path)) ∧
      (∀ piece tag value, IsNamed piece tag value →
        ∀ other otherValue, IsNamed piece other otherValue → other = tag ∧ otherValue = value) ∧
      ∀ tag value, tag ≠ "" → '[' ∉ tag.toList → value ≠ "" →
        ofPiece (tag ++ "[@name='" ++ escapeQuotes value ++ "']").toList = ⟨tag, .name value⟩ := by
  refine ⟨⟨trim path.toList, isStripped_trim path.toList, ?_⟩, ?_, ?_⟩
  · rw [readPath, List.forall₂_map_right_iff, List.forall₂_same]
    intro piece _
    exact reads_ofPiece piece
  · intro piece tag value named other otherValue otherNamed
    exact otherNamed.unique named
  · intro tag value filled whole some_value
    exact ofPiece_escapeQuotes filled whole some_value

theorem reads_readPath_quotes :
    (IsNamed "a[ @NaMe = 'it''s']".toList "a" "it's" ∧
        ¬IsNamed "a[ @NaMe = 'it''s']".toList "a" "it''s") ∧
      ("é b" ≠ "" ∧ '[' ∉ "é b".toList ∧ "'[it's]'" ≠ "" ∧
        ofPiece ("é b" ++ "[@name='" ++ escapeQuotes "'[it's]'" ++ "']").toList =
          ⟨"é b", .name "'[it's]'"⟩) := by
  rcases reads_readPath " /a[ @NaMe = 'it''s']//b[007] " with ⟨-, unique, readBack⟩
  have named : IsNamed "a[ @NaMe = 'it''s']".toList "a" "it's" := by
    refine ⟨by decide, " @NaMe = 'it''s'".toList, ⟨by decide, by decide, by decide⟩, ?_⟩
    exact ⟨[' '], "NaMe".toList, [' '], [' '], '\'', [], by decide, by decide, by decide, by decide,
      by decide, by decide, by decide⟩
  refine ⟨⟨named, ?_⟩, by decide, by decide, by decide, ?_⟩
  · intro otherNamed
    exact absurd (unique _ _ _ named _ _ otherNamed).2 (by decide)
  · exact readBack "é b" "'[it's]'" (by decide) (by decide) (by decide)

end Step

end XPath

end MarkupPath
