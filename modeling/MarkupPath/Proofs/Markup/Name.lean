import MarkupPath.Markup.Name
import MarkupPath.Text.Blank

/-!
# Names

A name is a start character followed by name characters. None of them is blank,
and none is a mark of the tag grammar or of the notation of paths, so a name ends
where it is followed by one of these.
-/

namespace MarkupPath.Markup

/-- The text is a name of the tag grammar. -/
def IsName : List Char → Prop
  | [] => False
  | first :: rest => isNameStart first = true ∧ ∀ character ∈ rest, isNameChar character = true

instance : DecidablePred IsName
  | [] => inferInstanceAs (Decidable False)
  | first :: rest =>
      decidable_of_iff (isNameStart first = true ∧ rest.all isNameChar = true) (by simp [IsName])

/-- The code points of name characters: `-`, `.`, digits, `:`, upper case, `_`, lower case. -/
theorem toNat_of_isNameChar {character : Char} (inName : isNameChar character = true) :
    character.toNat = 45 ∨ character.toNat = 46 ∨
      (48 ≤ character.toNat ∧ character.toNat ≤ 58) ∨
      (65 ≤ character.toNat ∧ character.toNat ≤ 90) ∨ character.toNat = 95 ∨
      (97 ≤ character.toNat ∧ character.toNat ≤ 122) := by
  delta isNameChar isNameStart Char.isAlpha Char.isUpper Char.isLower Char.isDigit at inName
  simp only [Bool.or_eq_true, Bool.and_eq_true, decide_eq_true_eq] at inName
  simp only [Char.ext_iff, ← UInt32.toNat_inj, GE.ge, UInt32.le_iff_toNat_le] at inName
  simp only [Char.toNat]
  simp only [UInt32.reduceToNat, Char.reduceVal] at inName
  omega

theorem isBlank_eq_false_of_isNameChar {character : Char} (inName : isNameChar character = true) :
    Text.isBlank character = false := by
  have code := toNat_of_isNameChar inName
  simp only [Text.isBlank, Text.blankRanges, List.any_eq_false, List.mem_cons, List.not_mem_nil,
    or_false, Bool.and_eq_true, decide_eq_true_eq]
  rintro ⟨first, last⟩ range
  simp only [Prod.mk.injEq] at range
  omega

theorem isSpace_eq_false_of_isNameChar {character : Char} (inName : isNameChar character = true) :
    isSpace character = false := by
  apply Bool.eq_false_iff.mpr
  intro space
  simp only [isSpace, Bool.or_eq_true, decide_eq_true_eq] at space
  rcases space with ((((rfl | rfl) | rfl) | rfl) | rfl) | rfl <;> revert inName <;> decide

theorem isNameChar_eq_false_of_isSpace {character : Char} (space : isSpace character = true) :
    isNameChar character = false := by
  apply Bool.eq_false_iff.mpr
  intro inName
  rw [isSpace_eq_false_of_isNameChar inName] at space
  exact nomatch space

theorem IsName.forall_isNameChar {text : List Char} (name : IsName text) :
    ∀ character ∈ text, isNameChar character = true := by
  cases text with
  | nil => exact name.elim
  | cons first rest =>
      intro character member
      rcases List.mem_cons.mp member with rfl | member
      · exact isNameChar_of_isNameStart name.1
      · exact name.2 character member

theorem IsName.ne_nil {text : List Char} (name : IsName text) : text ≠ [] := by
  rintro rfl
  exact name

/-- A mark that is no name character does not occur in a name. -/
theorem IsName.not_mem {text : List Char} (name : IsName text) {mark : Char}
    (other : isNameChar mark = false) : mark ∉ text := by
  intro member
  have inName := name.forall_isNameChar mark member
  rw [other] at inName
  exact nomatch inName

end MarkupPath.Markup
