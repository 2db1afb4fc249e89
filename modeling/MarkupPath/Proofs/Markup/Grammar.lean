import MarkupPath.Proofs.Markup.Reading
import MarkupPath.Proofs.Markup.ScanOrder

/-!
# The grammar of tags

Behind a `<`, a tag is read if and only if the text goes on with the pieces of a
well-formed one: its name is as long as it can be, and the `>` after its region is
the first one there is.

What is read instead of a tag holds for more than one place. Behind a name without
an end, the rest of the text has no end for any other tag either. And text that is
not a tag does not become one by what is added to it, unless it ends before the
name would begin.
-/

namespace MarkupPath

namespace Lexeme

open Markup

/-- The pieces are those of a tag of the grammar. -/
structure WellFormed (lexeme : Lexeme) : Prop where
  indent_space : ∀ character ∈ lexeme.indent, isSpace character = true
  slash_space : ∀ spaces, lexeme.slash = some spaces →
    ∀ character ∈ spaces, isSpace character = true
  isName : IsName lexeme.name
  /-- No further character of a name follows the name. -/
  apart : ∀ mark, lexeme.region.head? = some mark → isNameChar mark = false
  noEnd : '>' ∉ lexeme.region

/-- What stands between a `<` and the name. -/
def beforeName (indent : List Char) : Option (List Char) → List Char
  | some spaces => indent ++ '/' :: spaces
  | none => indent

theorem toList_eq (lexeme : Lexeme) :
    lexeme.toList = '<' :: (beforeName lexeme.indent lexeme.slash ++
      (lexeme.name ++ (lexeme.region ++ ['>']))) := by
  rcases lexeme with ⟨indent, slash, name, region⟩
  cases slash <;> simp [toList, opener, beforeName]

/-- White space, perhaps with a slash in it, as far as it goes before the rest of a text. -/
structure LeadsIn (indent : List Char) (slash : Option (List Char)) (rest : List Char) :
    Prop where
  indent_space : ∀ character ∈ indent, isSpace character = true
  slash_space : ∀ spaces, slash = some spaces → ∀ character ∈ spaces, isSpace character = true
  solid : ∀ first, rest.head? = some first → isSpace first = false ∧ (slash = none → first ≠ '/')

theorem read_beforeName {indent rest : List Char} {slash : Option (List Char)}
    (leads : LeadsIn indent slash rest) :
    read (beforeName indent slash ++ rest) = readName indent slash rest := by
  have solid : ∀ first, rest.head? = some first → isSpace first = false :=
    fun first isHead => (leads.solid first isHead).1
  cases slash with
  | none =>
      have longest : LongestRun isSpace indent rest := ⟨leads.indent_space, solid⟩
      rw [beforeName, read, longest.takeWhile_append, longest.dropWhile_append]
      split
      next more => exact absurd rfl ((leads.solid '/' rfl).2 rfl)
      next => rfl
  | some spaces =>
      have longest : LongestRun isSpace spaces rest := ⟨leads.slash_space spaces rfl, solid⟩
      have atSlash : LongestRun isSpace indent ('/' :: (spaces ++ rest)) :=
        longestRun_cons_iff.mpr ⟨leads.indent_space, by decide⟩
      rw [beforeName, List.append_assoc, List.cons_append, read, atSlash.takeWhile_append,
        atSlash.dropWhile_append]
      simp only [longest.takeWhile_append, longest.dropWhile_append]

theorem exists_leadsIn (text : List Char) :
    ∃ indent slash rest, text = beforeName indent slash ++ rest ∧ LeadsIn indent slash rest := by
  have longest := longestRun_takeWhile isSpace text
  have whole := List.takeWhile_append_dropWhile (p := isSpace) (l := text)
  by_cases slashed : (text.dropWhile isSpace).head? = some '/'
  · rcases List.head?_eq_some_iff.mp slashed with ⟨tail, split⟩
    have longestTail := longestRun_takeWhile isSpace tail
    have more := List.takeWhile_append_dropWhile (p := isSpace) (l := tail)
    refine ⟨text.takeWhile isSpace, some (tail.takeWhile isSpace), tail.dropWhile isSpace, ?_,
      ⟨longest.inside, ?_, ?_⟩⟩
    · rw [beforeName, List.append_assoc, List.cons_append, more, ← split, whole]
    · rintro spaces ⟨⟩
      exact longestTail.inside
    · intro first isHead
      exact ⟨longestTail.stops first isHead, fun none => nomatch none⟩
  · refine ⟨text.takeWhile isSpace, none, text.dropWhile isSpace, whole.symm, longest.inside,
      (fun spaces slash => nomatch slash), ?_⟩
    intro first isHead
    refine ⟨longest.stops first isHead, ?_⟩
    rintro - rfl
    exact slashed isHead

namespace WellFormed

variable {lexeme : Lexeme}

theorem leadsIn (wellFormed : lexeme.WellFormed) (rest : List Char) :
    LeadsIn lexeme.indent lexeme.slash (lexeme.name ++ rest) := by
  refine ⟨wellFormed.indent_space, wellFormed.slash_space, ?_⟩
  intro first isHead
  have isName := wellFormed.isName
  cases spelled : lexeme.name with
  | nil => exact absurd spelled isName.ne_nil
  | cons initial more =>
      rw [spelled] at isHead isName
      simp only [List.cons_append, List.head?_cons, Option.some.injEq] at isHead
      subst isHead
      have inName := isNameChar_of_isNameStart isName.1
      refine ⟨isSpace_eq_false_of_isNameChar inName, ?_⟩
      rintro - rfl
      exact absurd inName (by decide)

end WellFormed

theorem apart_of_readName {indent text after : List Char} {slash : Option (List Char)}
    {lexeme : Lexeme} (found : readName indent slash text = .tag lexeme after) :
    (∀ mark, lexeme.region.head? = some mark → isNameChar mark = false) ∧ '>' ∉ lexeme.region := by
  unfold readName at found
  split at found
  · cases found
  next first tail =>
    split at found
    next =>
      dsimp only at found
      split at found
      next =>
        simp only [Reading.tag.injEq] at found
        rcases found with ⟨rfl, -⟩
        constructor
        · intro mark isHead
          apply (longestRun_takeWhile isNameChar tail).stops
          cases behind : tail.dropWhile isNameChar with
          | nil => simp [behind] at isHead
          | cons next more =>
              rw [behind] at isHead
              by_cases atEnd : next = '>'
              · simp [atEnd] at isHead
              · simpa [atEnd] using isHead
        · intro member
          have inside := (longestRun_takeWhile (· != '>') _).inside _ member
          simp at inside
      next => cases found
    next => cases found

/-- A tag is read if and only if the text goes on with one. -/
theorem read_eq_tag_iff {text after : List Char} {lexeme : Lexeme} :
    read text = .tag lexeme after ↔
      lexeme.WellFormed ∧ '<' :: text = lexeme.toList ++ after := by
  constructor
  · intro found
    rcases exists_leadsIn text with ⟨indent, slash, rest, rfl, leads⟩
    have named := found
    rw [read_beforeName leads] at named
    rcases append_of_readName named with ⟨rfl, rfl, -⟩
    rcases apart_of_readName named with ⟨apart, noEnd⟩
    exact ⟨⟨leads.indent_space, leads.slash_space, isName_of_read found, apart, noEnd⟩,
      append_of_read found⟩
  · rintro ⟨wellFormed, split⟩
    rw [toList_eq, List.cons_append, List.cons.injEq] at split
    rw [split.2]
    simp only [List.append_assoc, List.singleton_append]
    rw [read_beforeName (wellFormed.leadsIn _),
      readName_append _ _ wellFormed.isName wellFormed.noEnd wellFormed.apart]

/-- Before the name of a tag there are white space and a slash alone. -/
theorem LeadsIn.not_mem {indent rest : List Char} {slash : Option (List Char)}
    (leads : LeadsIn indent slash rest) {mark : Char} (solid : isSpace mark = false)
    (other : mark ≠ '/') : mark ∉ beforeName indent slash := by
  have notIn : ∀ spaces : List Char, (∀ character ∈ spaces, isSpace character = true) →
      mark ∉ spaces := by
    intro spaces space member
    have isBlank := space mark member
    rw [solid] at isBlank
    exact nomatch isBlank
  cases slash with
  | none => exact notIn indent leads.indent_space
  | some spaces =>
      rw [beforeName, List.mem_append, List.mem_cons]
      rintro (member | same | member)
      · exact notIn indent leads.indent_space member
      · exact other same
      · exact notIn spaces (leads.slash_space spaces rfl) member

theorem WellFormed.end_not_mem {lexeme : Lexeme} (wellFormed : lexeme.WellFormed) :
    '>' ∉ '<' :: (beforeName lexeme.indent lexeme.slash ++ (lexeme.name ++ lexeme.region)) := by
  have notBefore : '>' ∉ beforeName lexeme.indent lexeme.slash :=
    (wellFormed.leadsIn []).not_mem (by decide) (by decide)
  have notInName : '>' ∉ lexeme.name := wellFormed.isName.not_mem (by decide)
  simp [notBefore, notInName, wellFormed.noEnd]

/-- A tag ends at the first `>` there is. -/
theorem exists_toList_eq_concat {text after : List Char} {lexeme : Lexeme}
    (found : read text = .tag lexeme after) :
    ∃ front, lexeme.toList = front ++ ['>'] ∧ '>' ∉ front := by
  refine ⟨_, ?_, (read_eq_tag_iff.mp found).1.end_not_mem⟩
  rw [toList_eq]
  simp

theorem toList_of_read {inner after rest : List Char} {lexeme : Lexeme} (noEnd : '>' ∉ inner)
    (found : read (inner ++ '>' :: after) = .tag lexeme rest) :
    lexeme.toList = '<' :: (inner ++ ['>']) ∧ rest = after := by
  rcases exists_toList_eq_concat found with ⟨front, spelled, notInFront⟩
  have split := append_of_read found
  rw [spelled, List.append_assoc, List.singleton_append, ← List.cons_append] at split
  have notInInner : '>' ∉ '<' :: inner := by simp [noEnd]
  have same := front_eq_of_not_mem notInInner notInFront split
  rw [← same] at spelled split
  exact ⟨spelled, (List.cons.inj (List.append_cancel_left split)).2.symm⟩

/-- A name is without an end only where no tag ends any more. -/
theorem end_not_mem_of_endless {text : List Char} (endless : read text = .endless) :
    '>' ∉ text := by
  rcases exists_leadsIn text with ⟨indent, slash, rest, rfl, leads⟩
  rw [read_beforeName leads] at endless
  cases rest with
  | nil => cases endless
  | cons first tail =>
      by_cases start : isNameStart first = true
      · have isName : IsName (first :: tail.takeWhile isNameChar) :=
          ⟨start, (longestRun_takeWhile isNameChar tail).inside⟩
        have noEnd : '>' ∉ tail.dropWhile isNameChar := by
          intro member
          simp [readName, start, member] at endless
        rw [← List.takeWhile_append_dropWhile (p := isNameChar) (l := tail), ← List.cons_append]
        simp only [List.mem_append, not_or]
        exact ⟨leads.not_mem (by decide) (by decide), isName.not_mem (by decide), noEnd⟩
      · simp [readName, start] at endless

/-- What is no tag stays none, unless the text ends before a name begins. -/
theorem read_append_of_notATag {text : List Char} (notATag : read text = .notATag) :
    '<' ∉ text ∨ ∀ more, read (text ++ more) = .notATag := by
  rcases exists_leadsIn text with ⟨indent, slash, rest, rfl, leads⟩
  rw [read_beforeName leads] at notATag
  cases rest with
  | nil =>
      left
      rw [List.append_nil]
      exact leads.not_mem (by decide) (by decide)
  | cons first tail =>
      right
      intro more
      have other : ¬isNameStart first = true := by
        intro start
        rw [readName, if_pos start] at notATag
        dsimp only at notATag
        split at notATag
        · cases notATag
        · cases notATag
      have further : LeadsIn indent slash (first :: tail ++ more) :=
        ⟨leads.indent_space, leads.slash_space, leads.solid⟩
      rw [List.append_assoc, read_beforeName further, List.cons_append, readName, if_neg other]

end Lexeme

end MarkupPath
