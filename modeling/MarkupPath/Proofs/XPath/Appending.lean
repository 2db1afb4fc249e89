import MarkupPath.Proofs.Markup.Grammar
import MarkupPath.Proofs.XPath.Location

/-!
# Longer texts

Text that is added to the end of a text adds tags to the end of its tags and
changes none of them, wherever the text ends: in a tag, a name or a value. So what
a path leads to stays what it leads to.
-/

namespace MarkupPath

namespace Tag

/-- A text without a `<` has no tags. -/
theorem scanAt_eq_nil {text : List Char} (tagless : '<' ∉ text) (position : Position) :
    scanAt position text = [] := by
  have passed := scanAt_tagless tagless position []
  rw [List.append_nil] at passed
  rw [passed, scanAt]

theorem scanAt_prefix_append (position : Position) (text more : List Char) :
    scanAt position text <+: scanAt position (text ++ more) := by
  fun_induction scanAt position text with
  | case1 => exact List.nil_prefix
  | case2 position body lexeme after reading ih =>
      rcases Lexeme.read_eq_tag_iff.mp reading with ⟨wellFormed, split⟩
      have further : Lexeme.read (body ++ more) = .tag lexeme (after ++ more) := by
        rw [Lexeme.read_eq_tag_iff, ← List.cons_append, split, List.append_assoc]
        exact ⟨wellFormed, rfl⟩
      rw [List.cons_append, scanAt_of_tag further, List.cons_prefix_cons]
      exact ⟨rfl, ih⟩
  | case3 position body notATag ih =>
      rcases Lexeme.read_append_of_notATag notATag with tagless | still
      · rw [scanAt_eq_nil tagless]
        exact List.nil_prefix
      · rw [List.cons_append, scanAt_of_notATag (still more)]
        exact ih
  | case4 => exact List.nil_prefix
  | case5 position first text other ih =>
      rw [List.cons_append, scanAt_of_ne other]
      exact ih

theorem scan_prefix_append (text more : String) : scan text <+: scan (text ++ more) := by
  rw [scan_eq_scanAt, scan_eq_scanAt, String.toList_append]
  exact scanAt_prefix_append .origin text.toList more.toList

end Tag

namespace XPath

theorem Search.run_append {search : Search} {steps : List Step} {nameAttributes : List String}
    {tags : List Tag} {position : Position}
    (found : search.run steps nameAttributes tags = some position) (more : List Tag) :
    search.run steps nameAttributes (tags ++ more) = some position := by
  induction tags generalizing search with
  | nil => exact nomatch found
  | cons tag tags ih =>
      rw [List.cons_append, run]
      rw [run] at found
      split at found
      next completes => rw [if_pos completes, found]
      next goesOn =>
        rw [if_neg goesOn]
        exact ih found

end XPath

namespace Query

/--
More text at the end of a text changes neither its tags nor what a path leads to in it.
-/
theorem scan_prefix_and_locate_append (text more : String) :
    Tag.scan text <+: Tag.scan (text ++ more) ∧
      ∀ path settings position, locate text path settings = .ok position →
        locate (text ++ more) path settings = .ok position := by
  have isPrefix := Tag.scan_prefix_append text more
  refine ⟨isPrefix, ?_⟩
  intro path settings position located
  rw [locate_eq_ok_iff] at located ⊢
  rcases isPrefix with ⟨later, whole⟩
  rw [← whole]
  exact XPath.Search.run_append located later

/-- What is added here completes a tag with the name that is looked for. -/
theorem locate_append_unfinished :
    locate "<a>\n<b/><b name='x'/><b" "/a/b[@name='x']" {} = .ok ⟨8, 1, 4⟩ ∧
      locate ("<a>\n<b/><b name='x'/><b" ++ " name='x'></a>") "/a/b[@name='x']" {} =
        .ok ⟨8, 1, 4⟩ := by
  have located : locate "<a>\n<b/><b name='x'/><b" "/a/b[@name='x']" {} = .ok ⟨8, 1, 4⟩ := by
    decide +kernel
  exact ⟨located, (scan_prefix_and_locate_append _ _).2 _ _ _ located⟩

end Query

end MarkupPath
