import MarkupPath.Proofs.Markup.Reading

/-!
# Writing attributes

An attribute can be written in many ways. Its value stands between quotes of a
kind that it does not hold, or bare if nothing in it would end it early, and
there may be white space on both sides of the equals sign. White space of any
length parts one attribute from the next.

However each of them is written, the attributes are read back one by one. In the
table that collects them, every name stands where it came first, with the value
that it was given last.
-/

namespace MarkupPath

/-- The names of a table come in the order in which the pairs first show them. -/
theorem NameTable.names_ofPairs {Value : Type} (pairs : List (String × Value)) :
    (ofPairs pairs).names = (pairs.map Prod.fst).eraseDups := by
  induction pairs using List.reverseRecOn with
  | nil => rfl
  | append_singleton pairs pair ih =>
      rw [ofPairs_concat, names_insert, ih, List.map_append, List.map_cons, List.map_nil,
        List.eraseDups_append]
      by_cases known : pair.1 ∈ pairs.map Prod.fst
      · simp [List.removeAll, known]
      · simp [List.removeAll, known, List.eraseDups_cons]

namespace Markup

/-- A value as it is written in a tag. -/
inductive WrittenValue
  | quoted (quote : Char) (value : List Char) (isQuote : isQuote quote = true)
      (unquoted : quote ∉ value)
  | bare (value : List Char) (filled : value ≠ [])
      (solid : ∀ character ∈ value, isBareChar character = true)
      (unquoted : ∀ first, value.head? = some first → isQuote first = false)

namespace WrittenValue

def value : WrittenValue → List Char
  | quoted _ value _ _ => value
  | bare value _ _ _ => value

def write : WrittenValue → List Char
  | quoted quote value _ _ => quote :: (value ++ [quote])
  | bare value _ _ _ => value

end WrittenValue

/-- A name and a value as they are written in a tag. -/
structure WrittenPair where
  name : List Char
  /-- What stands before the equals sign. -/
  before : List Char
  /-- What stands behind the equals sign. -/
  behind : List Char
  value : WrittenValue
  /-- What stands behind the pair if another pair follows. -/
  gap : List Char
  isName_name : IsName name
  before_space : ∀ character ∈ before, isSpace character = true
  behind_space : ∀ character ∈ behind, isSpace character = true
  gap_space : ∀ character ∈ gap, isSpace character = true
  gap_ne_nil : gap ≠ []

namespace WrittenPair

def write (written : WrittenPair) : List Char :=
  written.name ++ (written.before ++ '=' :: (written.behind ++ written.value.write))

def writeAll : List WrittenPair → List Char
  | [] => []
  | [last] => last.write
  | first :: second :: rest => first.write ++ (first.gap ++ writeAll (second :: rest))

/-- What the pair says, however it is written. -/
def pair (written : WrittenPair) : String × String :=
  (String.ofList written.name, String.ofList written.value.value)

end WrittenPair

theorem readPairs_of_spaces {spaces : List Char}
    (space : ∀ character ∈ spaces, isSpace character = true) (rest : List Char) :
    readPairs (spaces ++ rest) = readPairs rest := by
  induction spaces with
  | nil => rfl
  | cons first spaces ih =>
      rw [List.forall_mem_cons] at space
      have other : ¬isNameStart first = true := by
        intro start
        have inName := isNameChar_of_isNameStart start
        rw [isNameChar_eq_false_of_isSpace space.1] at inName
        exact nomatch inName
      rw [List.cons_append, readPairs_of_not_isNameStart other, ih space.2]

/-- A written value does not begin with white space. -/
theorem WrittenValue.longestRun_spaces (written : WrittenValue) {spaces : List Char}
    (space : ∀ character ∈ spaces, isSpace character = true) (rest : List Char) :
    LongestRun isSpace spaces (written.write ++ rest) := by
  refine ⟨space, ?_⟩
  intro first isFirst
  cases written with
  | quoted quote value isQuote unquoted =>
      rcases isFirst with ⟨⟩
      simp only [Markup.isQuote, Bool.or_eq_true, decide_eq_true_eq] at isQuote
      rcases isQuote with rfl | rfl <;> decide
  | bare value filled solid unquoted =>
      rw [write, List.head?_append_of_ne_nil _ filled] at isFirst
      have inValue := solid first (List.mem_of_head? isFirst)
      rw [isBareChar, Bool.and_eq_true, Bool.not_eq_true'] at inValue
      exact inValue.1

/-- A written value is read as a whole if nothing or white space follows it. -/
theorem WrittenValue.readValue_write (written : WrittenValue) {rest : List Char}
    (parted : ∀ next, rest.head? = some next → isSpace next = true) :
    readValue (written.write ++ rest) = (written.value, rest) := by
  cases written with
  | quoted quote value isQuote unquoted =>
      rw [write, List.cons_append, List.append_assoc, List.singleton_append]
      exact readValue_quoted isQuote unquoted rest
  | bare value filled solid unquoted =>
      have longest : LongestRun isBareChar value rest := by
        refine ⟨solid, ?_⟩
        intro next isNext
        simp [isBareChar, parted next isNext]
      have taken := longest.takeWhile_append
      have left := longest.dropWhile_append
      cases value with
      | nil => exact absurd rfl filled
      | cons first more =>
          rw [write, WrittenValue.value, List.cons_append, readValue, unquoted first rfl,
            Bool.false_and, if_neg Bool.false_ne_true]
          exact Prod.ext taken left

namespace WrittenPair

theorem readPairs_write (written : WrittenPair) {rest : List Char}
    (parted : ∀ next, rest.head? = some next → isSpace next = true) :
    readPairs (written.write ++ rest) = written.pair :: readPairs rest := by
  have atValue := written.value.longestRun_spaces written.behind_space rest
  have read := readPairs_of_isName written.isName_name written.before_space atValue
  rw [written.value.readValue_write parted] at read
  simpa [write, pair] using read

/-- Every pair that was written is read, in the order of the text. -/
theorem readPairs_writeAll (written : List WrittenPair) :
    readPairs (writeAll written) = written.map pair := by
  induction written using writeAll.induct with
  | case1 => simp [writeAll, readPairs]
  | case2 last =>
      have atEnd : ∀ next, ([] : List Char).head? = some next → isSpace next = true := by simp
      have read := last.readPairs_write atEnd
      rw [List.append_nil] at read
      simp [writeAll, read, readPairs]
  | case3 first second rest ih =>
      have parted : ∀ next, (first.gap ++ writeAll (second :: rest)).head? = some next →
          isSpace next = true := by
        intro next isNext
        rw [List.head?_append_of_ne_nil _ first.gap_ne_nil] at isNext
        exact first.gap_space next (List.mem_of_head? isNext)
      rw [writeAll, first.readPairs_write parted, readPairs_of_spaces first.gap_space, ih]
      rfl

end WrittenPair

end Markup

namespace Attributes

open Markup (WrittenPair isBareChar isQuote isSpace)

/--
Written attributes are read back. Their names are in the order of their first occurrence, and each
has the value of its last one; other names have none.
-/
theorem ofText_writeAll (written : List WrittenPair) :
    (ofText (WrittenPair.writeAll written)).names =
        (written.map fun entry => entry.pair.1).eraseDups ∧
      ∀ name, (ofText (WrittenPair.writeAll written)).get? name =
        (written.map WrittenPair.pair).reverse.lookup name := by
  rw [ofText, WrittenPair.readPairs_writeAll]
  constructor
  · rw [NameTable.names_ofPairs, List.map_map]
    rfl
  · exact NameTable.get?_ofPairs _

/-- The value of `a` is given twice, and the text in each of the quoted values looks like a pair. -/
theorem ofText_writeAll_repeated :
    ∃ written : List WrittenPair,
      WrittenPair.writeAll written = "a=1 b = 'a=\"7\"'\t\na=\"c=2\"".toList ∧
      (ofText (WrittenPair.writeAll written)).names = ["a", "b"] ∧
      (ofText (WrittenPair.writeAll written)).get? "a" = some "c=2" ∧
      (ofText (WrittenPair.writeAll written)).get? "b" = some "a=\"7\"" ∧
      (ofText (WrittenPair.writeAll written)).get? "c" = none := by
  let bare : WrittenPair :=
    ⟨['a'], [], [], .bare ['1'] (by simp) (by simp [isBareChar, isSpace]) (by simp [isQuote]), [' '],
      by decide, by simp, by simp, by simp [isSpace], by simp⟩
  let spaced : WrittenPair :=
    ⟨['b'], [' '], [' '], .quoted '\'' "a=\"7\"".toList (by decide) (by decide), ['\t', '\n'],
      by decide, by simp [isSpace], by simp [isSpace], by simp [isSpace], by simp⟩
  let again : WrittenPair :=
    ⟨['a'], [], [], .quoted '"' "c=2".toList (by decide) (by decide), [' '],
      by decide, by simp, by simp, by simp [isSpace], by simp⟩
  have read := ofText_writeAll [bare, spaced, again]
  refine ⟨[bare, spaced, again], by decide, ?_, ?_, ?_, ?_⟩
  · rw [read.1]
    decide
  · rw [read.2]
    decide
  · rw [read.2]
    decide
  · rw [read.2]
    decide

end Attributes

end MarkupPath
