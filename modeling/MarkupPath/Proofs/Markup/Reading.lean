import Mathlib.Data.List.Induction
import MarkupPath.Markup.Scan
import MarkupPath.Proofs.Markup.Name
import MarkupPath.Proofs.Text.Run

/-!
# Reading well-formed tags

What the tag grammar says of a tag that is written with care: a name stands right
after its bracket or slash, and every attribute has a name and a value in double
quotes. Such a tag is read piece by piece as it was written.
-/

namespace MarkupPath

namespace NameTable

variable {Value : Type}

theorem ofPairs_concat (pairs : List (String × Value)) (pair : String × Value) :
    ofPairs (pairs ++ [pair]) = (ofPairs pairs).insert pair.1 pair.2 := by
  rw [ofPairs, List.foldl_append, List.foldl_cons, List.foldl_nil, ← ofPairs]

/-- The last pair of a name tells its value. -/
theorem get?_ofPairs (pairs : List (String × Value)) (name : String) :
    (ofPairs pairs).get? name = pairs.reverse.lookup name := by
  induction pairs using List.reverseRecOn with
  | nil => rfl
  | append_singleton pairs pair ih =>
      rcases pair with ⟨last, value⟩
      rw [ofPairs_concat, get?_insert, ih, List.reverse_concat, List.lookup_cons]
      by_cases here : name = last
      · simp [here]
      · simp [here, beq_false_of_ne here]

theorem lookup_reverse {pairs : List (String × Value)} (distinct : (pairs.map Prod.fst).Nodup)
    (name : String) : pairs.reverse.lookup name = pairs.lookup name := by
  induction pairs with
  | nil => rfl
  | cons pair pairs ih =>
      rcases pair with ⟨first, value⟩
      rw [List.map_cons, List.nodup_cons] at distinct
      rw [List.reverse_cons, List.lookup_append, ih distinct.2, List.lookup_cons, List.lookup_cons]
      by_cases here : name = first
      · have absent : pairs.lookup name = none := by
          rw [List.lookup_eq_none_iff]
          intro other member
          rw [bne_iff_ne]
          rintro rfl
          exact distinct.1 (List.mem_map.mpr ⟨other, member, here⟩)
        rw [absent, Option.none_or, beq_iff_eq.mpr here]
      · rw [beq_false_of_ne here, List.lookup_nil, Option.or_none]

/-- Pairs with distinct names are all found in their table. -/
theorem get?_ofPairs_of_nodup {pairs : List (String × Value)}
    (distinct : (pairs.map Prod.fst).Nodup) (name : String) :
    (ofPairs pairs).get? name = pairs.lookup name := by
  rw [get?_ofPairs, lookup_reverse distinct]

theorem mem_of_mem_write {name : String} {value : Value} {entry : String × Value}
    {entries : List (String × Value)} (member : entry ∈ write name value entries) :
    entry = (name, value) ∨ entry ∈ entries := by
  induction entries with
  | nil => exact Or.inl (List.mem_singleton.mp member)
  | cons first rest ih =>
      unfold write at member
      split at member
      next =>
        rcases List.mem_cons.mp member with isNew | later
        · exact Or.inl isNew
        · exact Or.inr (List.mem_cons_of_mem first later)
      next =>
        rcases List.mem_cons.mp member with isFirst | written
        · exact Or.inr (isFirst ▸ List.mem_cons_self)
        · rcases ih written with isNew | later
          · exact Or.inl isNew
          · exact Or.inr (List.mem_cons_of_mem first later)

/-- Each entry of the table of some pairs is one of them. -/
theorem mem_of_mem_ofPairs {pairs : List (String × Value)} {entry : String × Value}
    (member : entry ∈ (ofPairs pairs).entries) : entry ∈ pairs := by
  induction pairs using List.reverseRecOn with
  | nil => exact member
  | append_singleton pairs pair ih =>
      rw [ofPairs_concat] at member
      rcases mem_of_mem_write member with isLast | earlier
      · exact List.mem_append_right _ (List.mem_singleton.mpr isLast)
      · exact List.mem_append_left _ (ih earlier)

end NameTable

namespace Attributes

theorem find?_filterMap_eq_findSome? {Value : Type} (keep : Value → Bool)
    (value? : String → Option Value) (names : List String) :
    (names.filterMap value?).find? keep = names.findSome? fun name => (value? name).filter keep := by
  induction names with
  | nil => rfl
  | cons name names ih =>
      cases found : value? name with
      | none => simp [found, ih]
      | some value => by_cases kept : keep value = true <;> simp [found, kept, ih, Option.filter]

theorem firstFilled_eq_findSome? (attributes : Attributes) (candidates : List String) :
    attributes.firstFilled candidates =
      candidates.findSome? fun name =>
        (attributes.get? name).filter fun value => !value.toList.all Text.isBlank :=
  find?_filterMap_eq_findSome? _ attributes.get? candidates

end Attributes

namespace Markup

theorem readValue_quoted {quote : Char} {value : List Char} (isQuote : isQuote quote = true)
    (unquoted : quote ∉ value) (rest : List Char) :
    readValue (quote :: (value ++ quote :: rest)) = (value, rest) := by
  have longest := longestRun_of_not_mem unquoted rest
  simp [readValue, isQuote, longest.takeWhile_append, longest.dropWhile_append]

theorem afterEquals?_of_spaces {before : List Char}
    (space : ∀ character ∈ before, isSpace character = true) (after : List Char) :
    afterEquals? (before ++ '=' :: after) = some (after.dropWhile isSpace) := by
  have longest : LongestRun isSpace before ('=' :: after) :=
    longestRun_cons_iff.mpr ⟨space, by decide⟩
  simp only [afterEquals?, longest.dropWhile_append]

/-- Behind its name and its equals sign, a pair goes on as far as its value. -/
theorem readPairs_of_isName {name before behind valueText : List Char} (isName : IsName name)
    (spaceBefore : ∀ character ∈ before, isSpace character = true)
    (longestBehind : LongestRun isSpace behind valueText) :
    readPairs (name ++ (before ++ '=' :: (behind ++ valueText))) =
      (String.ofList name, String.ofList (readValue valueText).1) ::
        readPairs (readValue valueText).2 := by
  cases name with
  | nil => exact isName.elim
  | cons first more =>
      have longest : LongestRun isNameChar more (before ++ '=' :: (behind ++ valueText)) := by
        refine ⟨isName.2, ?_⟩
        intro mark isHead
        cases before with
        | nil =>
            rcases isHead with ⟨⟩
            decide
        | cons space before =>
            rcases isHead with ⟨⟩
            exact isNameChar_eq_false_of_isSpace (spaceBefore mark List.mem_cons_self)
      have after : afterEquals?
          ((more ++ (before ++ '=' :: (behind ++ valueText))).dropWhile isNameChar) =
            some valueText := by
        rw [longest.dropWhile_append, afterEquals?_of_spaces spaceBefore,
          longestBehind.dropWhile_append]
      rw [List.cons_append, readPairs_of_some isName.1 after, longest.takeWhile_append]

theorem readPairs_quoted {name value : List Char} (isName : IsName name) (unquoted : '"' ∉ value)
    (rest : List Char) :
    readPairs (' ' :: (name ++ '=' :: '"' :: (value ++ '"' :: rest))) =
      (String.ofList name, String.ofList value) :: readPairs rest := by
  have atValue : LongestRun isSpace [] ('"' :: (value ++ '"' :: rest)) :=
    longestRun_cons_iff.mpr ⟨by simp, by decide⟩
  have pair := readPairs_of_isName isName (List.forall_mem_nil _) atValue
  rw [readValue_quoted (by decide) unquoted] at pair
  rw [readPairs_of_not_isNameStart (by decide)]
  exact pair

end Markup

namespace Lexeme

open Markup

theorem readName_append (indent : List Char) (slash : Option (List Char)) {name region : List Char}
    (isName : IsName name) (noEnd : '>' ∉ region)
    (apart : ∀ mark, region.head? = some mark → isNameChar mark = false) (rest : List Char) :
    readName indent slash (name ++ (region ++ '>' :: rest)) =
      .tag ⟨indent, slash, name, region⟩ rest := by
  have ended := longestRun_of_not_mem noEnd rest
  cases name with
  | nil => exact isName.elim
  | cons first more =>
      have longest : LongestRun isNameChar more (region ++ '>' :: rest) := by
        refine ⟨isName.2, ?_⟩
        intro mark isHead
        cases region with
        | nil =>
            rcases isHead with ⟨⟩
            decide
        | cons initial tail => exact apart mark isHead
      rw [List.cons_append, readName, if_pos isName.1, longest.takeWhile_append,
        longest.dropWhile_append]
      simp [ended.takeWhile_append, ended.dropWhile_append]

theorem read_name {name : List Char} (isName : IsName name) (rest : List Char) :
    read (name ++ rest) = readName [] none (name ++ rest) := by
  cases name with
  | nil => exact isName.elim
  | cons first more =>
      have inName := isNameChar_of_isNameStart isName.1
      have solid := isSpace_eq_false_of_isNameChar inName
      have other : first ≠ '/' := by
        rintro rfl
        exact absurd inName (by decide)
      simp [read, solid, other]

theorem read_slash {name : List Char} (isName : IsName name) (rest : List Char) :
    read ('/' :: (name ++ rest)) = readName [] (some []) (name ++ rest) := by
  cases name with
  | nil => exact isName.elim
  | cons first more =>
      have solid := isSpace_eq_false_of_isNameChar (isNameChar_of_isNameStart isName.1)
      have slash : isSpace '/' = false := by decide
      simp [read, solid, slash]

end Lexeme

/-- A text in which no tag begins is passed over by a scan. -/
theorem Tag.scanAt_tagless {content : List Char} (tagless : '<' ∉ content) (position : Position)
    (rest : List Char) :
    scanAt position (content ++ rest) = scanAt (position.advanceOver content) rest := by
  induction content generalizing position with
  | nil => rfl
  | cons first content ih =>
      rw [List.mem_cons, not_or] at tagless
      rw [List.cons_append, scanAt_of_ne fun same => tagless.1 same.symm, ih tagless.2]
      rfl

end MarkupPath
