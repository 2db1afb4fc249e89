import MarkupPath.Proofs.XPath.Grammar

/-!
# The notation of steps

A step is written as its tag, and behind it the index in brackets or the name in
brackets and quotes. `Step.write` is this notation. A single step is read back
from it, whatever characters its name has.
-/

namespace MarkupPath

namespace Text

/-- A text is left as it is if neither its first nor its last character is blank. -/
theorem trim_eq_self {text : List Char}
    (first : ∀ character, text.head? = some character → isBlank character = false)
    (last : ∀ character, text.getLast? = some character → isBlank character = false) :
    trim text = text := by
  have unchanged : ∀ characters : List Char,
      (∀ character, characters.head? = some character → isBlank character = false) →
        characters.dropWhile isBlank = characters := by
    intro characters solid
    cases characters with
    | nil => rfl
    | cons character rest => simp [solid character rfl]
  rw [trim, trimStart, unchanged text first, trimEnd, unchanged text.reverse, List.reverse_reverse]
  intro character isHead
  rw [List.head?_reverse] at isHead
  exact last character isHead

namespace Quoted

/-- Doubling the quotes of a text adds quotes alone. -/
theorem mem_of_mem_double {quote character : Char} (other : character ≠ quote) {text : List Char}
    (member : character ∈ double quote text) : character ∈ text := by
  induction text with
  | nil => exact member
  | cons first text ih =>
      by_cases isQuote : first = quote
      · simp only [double, isQuote, if_true, List.mem_cons, other, false_or] at member
        exact List.mem_cons_of_mem _ (ih member)
      · simp only [double, isQuote, if_false, List.mem_cons] at member
        rcases member with rfl | member
        · exact List.mem_cons_self
        · exact List.mem_cons_of_mem _ (ih member)

theorem mem_double_of_mem (quote : Char) {character : Char} {text : List Char}
    (member : character ∈ text) : character ∈ double quote text := by
  induction text with
  | nil => exact member
  | cons first rest ih =>
      rw [double]
      rcases List.mem_cons.mp member with rfl | later
      · split
        · next isQuote => simp [isQuote]
        · exact List.mem_cons_self
      · split
        · exact List.mem_cons_of_mem _ (List.mem_cons_of_mem _ (ih later))
        · exact List.mem_cons_of_mem _ (ih later)

end Quoted

end Text

namespace XPath

open Text

namespace Step

/-- What a step writes between its brackets. -/
def inside? (step : Step) : Option (List Char) :=
  match step.choice with
  | .first => none
  | .index number => some (Nat.toDigits 10 number)
  | .name value => some ("@name='".toList ++ Quoted.double '\'' value.toList ++ ['\''])

/-- The text of a step, without the slash before it. -/
def write (step : Step) : List Char :=
  match step.inside? with
  | none => step.tag.toList
  | some inside => step.tag.toList ++ '[' :: (inside ++ [']'])

/-- The notation of the step stands for this step and no other. -/
structure IsReadable (step : Step) : Prop where
  isName_tag : Markup.IsName step.tag.toList
  index_lt : ∀ number, step.choice = .index number → number < UInt64.size
  name_ne : ∀ value, step.choice = .name value → value ≠ ""

end Step

theorem brackets_of_isName {tag : List Char} (isName : Markup.IsName tag) (inside : List Char) :
    Brackets (tag ++ '[' :: (inside ++ [']'])) tag inside :=
  ⟨rfl, isName.ne_nil, isName.not_mem (by decide)⟩

theorem splitBrackets_of_brackets {tag : List Char} (isName : Markup.IsName tag)
    (inside : List Char) : splitBrackets (tag ++ '[' :: (inside ++ [']'])) = some (tag, inside) :=
  splitBrackets_eq_some_iff.mpr (brackets_of_isName isName inside)

theorem spellsIndex_toDigits {number : Nat} (bound : number < UInt64.size) :
    SpellsIndex (Nat.toDigits 10 number) number := by
  refine ⟨Nat.toDigits_ne_nil, ?_, Nat.ofDigitChars_ten_toDigits, bound⟩
  intro character member
  exact Nat.isDigit_of_mem_toDigits (by decide) (by decide) member

namespace Step

/-- A piece without the marks of a form does not have the form. -/
theorem not_isNamed {piece : List Char} (unmarked : '@' ∉ piece) (tag value : String) :
    ¬IsNamed piece tag value := by
  rintro ⟨-, inside, brackets, before, word, between, behind, quote, after, rfl, -⟩
  apply unmarked
  rw [brackets.split]
  simp

theorem not_isIndexed {piece : List Char} (unmarked : '[' ∉ piece) (tag : String) (number : Nat) :
    ¬IsIndexed piece tag number := by
  rintro ⟨inside, brackets, -⟩
  apply unmarked
  rw [brackets.split]
  simp

theorem ofPiece_write {step : Step} (readable : step.IsReadable) : ofPiece step.write = step := by
  have isName := readable.isName_tag
  have unmarked : '@' ∉ step.tag.toList ∧ '[' ∉ step.tag.toList :=
    ⟨isName.not_mem (by decide), isName.not_mem (by decide)⟩
  rcases step with ⟨tag, choice⟩
  cases choice with
  | first =>
      rw [ofPiece_eq_first_iff]
      exact ⟨not_isNamed unmarked.1, not_isIndexed unmarked.2, String.ofList_toList.symm⟩
  | index number =>
      have spelled := spellsIndex_toDigits (readable.index_lt number rfl)
      have notInDigits : '@' ∉ Nat.toDigits 10 number :=
        fun member => absurd (spelled.2.1 '@' member) (by decide)
      rw [ofPiece_eq_index_iff]
      refine ⟨not_isNamed ?_, _, brackets_of_isName isName _, spelled⟩
      simp [write, inside?, unmarked.1, notInDigits]
  | name value =>
      apply ofPiece_of_named
      exact isNamed_of_quoted (by simpa using isName.ne_nil) unmarked.2
        (readable.name_ne value rfl)

end Step

end XPath

end MarkupPath
