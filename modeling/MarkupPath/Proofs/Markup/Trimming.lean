import MarkupPath.Proofs.Markup.PairBytes
import MarkupPath.Proofs.Markup.Writing

/-!
# White space at the ends of attributes

White space before the attributes of a tag begins no name, and white space behind them
is in no value: it ends a bare one, and a quoted one ends before it. So the attributes
of a text are those of the trimmed text.
-/

namespace MarkupPath

/-- A run is not longer if more follows that is not in the class. -/
theorem LongestRun.append_of_not {α : Type} {inClass : α → Bool} {run rest more : List α}
    (longest : LongestRun inClass run rest) (others : ∀ one ∈ more, inClass one = false) :
    LongestRun inClass run (rest ++ more) := by
  refine ⟨longest.inside, ?_⟩
  intro one isHead
  cases rest with
  | nil => exact others one (List.mem_of_head? isHead)
  | cons first rest => exact longest.stops one isHead

namespace Markup

theorem readValue_of_unclosed {first : Char} {rest : List Char}
    (unclosed : isQuote first = true → first ∉ rest) :
    readValue (first :: rest) =
      ((first :: rest).takeWhile isBareChar, (first :: rest).dropWhile isBareChar) := by
  rw [readValue]
  split
  next closed =>
    rw [Bool.and_eq_true, List.contains_iff_mem] at closed
    exact absurd closed.2 (unclosed closed.1)
  next => rfl

theorem not_isQuote_of_isSpace {character : Char} (space : isSpace character = true) :
    ¬isQuote character = true := by
  simp only [isSpace, Bool.or_eq_true, decide_eq_true_eq] at space
  rcases space with ((((rfl | rfl) | rfl) | rfl) | rfl) | rfl <;> decide

section Spaces

variable {spaces : List Char} (space : ∀ character ∈ spaces, isSpace character = true)

include space

theorem readValue_spaces : readValue spaces = ([], spaces) := by
  cases spaces with
  | nil => rfl
  | cons first rest =>
      rw [List.forall_mem_cons] at space
      have ends : ¬isBareChar first = true := by simp [isBareChar, space.1]
      rw [readValue_of_unclosed fun quote => absurd quote (not_isQuote_of_isSpace space.1),
        List.takeWhile_cons_of_neg ends, List.dropWhile_cons_of_neg ends]

theorem readValue_append_spaces (text : List Char) :
    readValue (text ++ spaces) = ((readValue text).1, (readValue text).2 ++ spaces) := by
  cases text with
  | nil => exact readValue_spaces space
  | cons first rest =>
      by_cases closed : isQuote first = true ∧ first ∈ rest
      · rcases closed with ⟨isQuote, again⟩
        rcases List.eq_append_cons_of_mem again with ⟨value, after, rfl, unquoted⟩
        have whole := readValue_quoted isQuote unquoted (after ++ spaces)
        rw [readValue_quoted isQuote unquoted]
        simpa using whole
      · have unclosed : isQuote first = true → first ∉ rest :=
          fun isQuote again => closed ⟨isQuote, again⟩
        have stillUnclosed : isQuote first = true → first ∉ rest ++ spaces := by
          intro isQuote again
          rcases List.mem_append.mp again with inRest | inSpaces
          · exact unclosed isQuote inRest
          · exact not_isQuote_of_isSpace (space first inSpaces) isQuote
        have ends : ∀ character ∈ spaces, isBareChar character = false := by
          intro character member
          simp [isBareChar, space character member]
        have longest := (longestRun_takeWhile isBareChar (first :: rest)).append_of_not ends
        have whole := List.takeWhile_append_dropWhile (p := isBareChar) (l := first :: rest)
        rw [readValue_of_unclosed unclosed, List.cons_append,
          readValue_of_unclosed stillUnclosed, ← List.cons_append]
        nth_rewrite 1 2 [← whole]
        rw [List.append_assoc, longest.takeWhile_append, longest.dropWhile_append]

/-- White space behind an equals sign and its value is left behind the value. -/
theorem exists_afterEquals?_append_spaces {text valueText : List Char}
    (found : afterEquals? text = some valueText) :
    ∃ more, (∀ character ∈ more, isSpace character = true) ∧
      afterEquals? (text ++ spaces) = some (valueText ++ more) := by
  rcases exists_of_afterEquals? found with ⟨before, behind, rfl, longestBefore, longestBehind⟩
  rw [List.append_assoc, List.cons_append, afterEquals?_of_spaces longestBefore.inside,
    List.append_assoc, List.dropWhile_append_of_pos longestBehind.inside]
  cases valueText with
  | nil => exact ⟨_, fun character member => space character (List.dropWhile_sublist _ |>.mem member),
      rfl⟩
  | cons first rest =>
      refine ⟨spaces, space, ?_⟩
      rw [List.cons_append, List.dropWhile_cons_of_neg (by simp [longestBehind.stops first rfl])]

theorem afterEquals?_append_spaces_eq_none {text : List Char} (missing : afterEquals? text = none) :
    afterEquals? (text ++ spaces) = none := by
  have noSign : '=' ∉ spaces := fun member => absurd (space '=' member) (by decide)
  cases found : afterEquals? (text ++ spaces) with
  | none => rfl
  | some valueText =>
      rcases exists_of_afterEquals? found with ⟨before, behind, split, longestBefore, -⟩
      rcases List.append_eq_append_iff.mp split with ⟨front, -, inSpaces⟩ | ⟨front, rfl, after⟩
      · exact absurd (by simp [inSpaces]) noSign
      · cases front with
        | nil =>
            rw [List.nil_append] at after
            exact absurd (after ▸ List.mem_cons_self) noSign
        | cons first rest =>
            rcases List.cons.inj after with ⟨rfl, -⟩
            rw [afterEquals?_of_spaces longestBefore.inside] at missing
            exact nomatch missing

theorem name_append_spaces (text : List Char) :
    (text ++ spaces).takeWhile isNameChar = text.takeWhile isNameChar ∧
      (text ++ spaces).dropWhile isNameChar = text.dropWhile isNameChar ++ spaces := by
  have ends : ∀ character ∈ spaces, isNameChar character = false :=
    fun character member => isNameChar_eq_false_of_isSpace (space character member)
  have longest := (longestRun_takeWhile isNameChar text).append_of_not ends
  have whole := List.takeWhile_append_dropWhile (p := isNameChar) (l := text)
  nth_rewrite 1 3 [← whole]
  rw [List.append_assoc]
  exact ⟨longest.takeWhile_append, longest.dropWhile_append⟩

/-- White space behind the pairs is in none of them. -/
theorem readPairs_append_spaces (text : List Char) :
    readPairs (text ++ spaces) = readPairs text := by
  fun_induction readPairs text generalizing spaces with
  | case1 =>
      have nothing := readPairs_of_spaces space []
      rw [List.append_nil] at nothing
      rw [List.nil_append, nothing, readPairs]
  | case2 first rest start valueText found ih =>
      rcases name_append_spaces space rest with ⟨name, behind⟩
      rcases exists_afterEquals?_append_spaces space found with ⟨more, moreSpace, stillFound⟩
      rw [← behind] at stillFound
      rw [List.cons_append, readPairs_of_some start stillFound, name,
        readValue_append_spaces moreSpace, ih moreSpace]
  | case3 first rest start missing ih =>
      rcases name_append_spaces space rest with ⟨-, behind⟩
      have stillMissing := afterEquals?_append_spaces_eq_none space missing
      rw [← behind] at stillMissing
      rw [List.cons_append, readPairs_of_none start stillMissing, behind, ih space]
  | case4 first rest other ih =>
      rw [List.cons_append, readPairs_of_not_isNameStart other, ih space]

end Spaces

/-- The pairs of a text are those of the trimmed text. -/
theorem readPairs_trim (text : List Char) :
    readPairs ((text.dropWhile isSpace).reverse.dropWhile isSpace).reverse = readPairs text := by
  have front := List.takeWhile_append_dropWhile (p := isSpace) (l := text)
  have back := List.takeWhile_append_dropWhile (p := isSpace)
    (l := (text.dropWhile isSpace).reverse)
  have frontSpace := (longestRun_takeWhile isSpace text).inside
  have backSpace : ∀ character ∈ ((text.dropWhile isSpace).reverse.takeWhile isSpace).reverse,
      isSpace character = true := by
    intro character member
    exact (longestRun_takeWhile isSpace _).inside character (List.mem_reverse.mp member)
  have whole : text.dropWhile isSpace =
      ((text.dropWhile isSpace).reverse.dropWhile isSpace).reverse ++
        ((text.dropWhile isSpace).reverse.takeWhile isSpace).reverse := by
    rw [← List.reverse_append, back, List.reverse_reverse]
  calc readPairs ((text.dropWhile isSpace).reverse.dropWhile isSpace).reverse
    _ = readPairs (text.dropWhile isSpace) := by
      rw [← readPairs_append_spaces backSpace, ← whole]
    _ = readPairs text := by
      rw [← readPairs_of_spaces frontSpace, front]

end Markup

end MarkupPath
