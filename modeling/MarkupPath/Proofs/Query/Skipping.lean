import MarkupPath.Element.Enclosing
import MarkupPath.Element.Segment
import MarkupPath.Query.Library
import MarkupPath.Settings.Basic

/-!
# Skipped elements

A caller can name elements that paths are not to show. This takes segments away
from a path and changes nothing in the others. The count of siblings asks for the
skipped names too, but only of tags with the name of the element that is counted,
and an element that is shown has no skipped name. Its ancestors may have one.
-/

namespace MarkupPath

namespace Element

/-- For an element that is shown, the names that are skipped do not matter. -/
theorem countsFor_of_shown {target : Element} {skip : NameSet}
    (shown : skip.contains target.name = false) (nested : Ancestry String) (tag : Tag) :
    target.countsFor skip nested tag = target.countsFor .empty nested tag := by
  have nothing : NameSet.empty.contains target.name = false := rfl
  by_cases sameName : tag.name = target.name
  · rw [countsFor, countsFor, sameName, shown, nothing]
  · simp [countsFor, sameName]

theorem indexAmong_of_shown {parent target : Element} {skip : NameSet}
    (shown : skip.contains target.name = false) (nested : Ancestry String) (count : Nat)
    (tags : List Tag) :
    indexAmong parent target skip nested count tags =
      indexAmong parent target .empty nested count tags := by
  induction tags generalizing nested count with
  | nil => rfl
  | cons tag rest ih => simp only [indexAmong, countsFor_of_shown shown, ih]

theorem siblingIndex_of_shown_at (text : String) {path : List Element} {place : Nat}
    {target : Element} {skip : NameSet} (targetAt : path[place]? = some target)
    (shown : skip.contains target.name = false) :
    siblingIndex text path place skip = siblingIndex text path place .empty := by
  cases place with
  | zero => rfl
  | succ above =>
      rw [siblingIndex, siblingIndex, targetAt]
      cases path[above]? with
      | none => rfl
      | some parent => simp only [indexAmong_of_shown shown]

end Element

namespace Segment

/-- A segment that is shown does not tell which other elements are skipped. -/
theorem ofElement_of_shown (text : String) {path : List Element} {place : Nat} {element : Element}
    {skip : NameSet} (nameAttributes : List String) (elementAt : path[place]? = some element)
    (shown : skip.contains element.name = false) :
    ofElement text path skip nameAttributes element place =
      ofElement text path .empty nameAttributes element place := by
  simp only [ofElement, Element.siblingIndex_of_shown_at text elementAt shown]

/-- Leaving elements out of a path is leaving out their segments. -/
theorem ofPath_eq_filter (text : String) (path : List Element) (skip : NameSet)
    (nameAttributes : List String) :
    ofPath text path skip nameAttributes =
      (ofPath text path .empty nameAttributes).filter fun segment => !skip.contains segment.tag := by
  rw [ofPath_empty, List.filter_map, ofPath]
  apply List.map_congr_left
  rintro ⟨element, place⟩ member
  rw [List.mem_filter, List.mk_mem_zipIdx_iff_getElem?] at member
  exact ofElement_of_shown text nameAttributes member.1 (by simpa using member.2)

end Segment

theorem SkipRule.appliesTo_iff {readPattern : String → Option (String → Bool)} {rule : SkipRule}
    {document : String} :
    rule.appliesTo readPattern document = true ↔
      ∃ describes ∈ readPattern rule.filePattern, describes document = true := by
  rw [appliesTo]
  cases readPattern rule.filePattern with
  | none => simp
  | some describes => simp

namespace Settings

/-- Extending a set by the elements of one rule after the other collects those of all of them. -/
theorem mem_names_foldl_extend (rules : List SkipRule) (skip : NameSet) (name : String) :
    name ∈ (rules.foldl (fun skip rule => skip.extend rule.elements) skip).names ↔
      (∃ rule ∈ rules, name ∈ rule.elements) ∨ name ∈ skip.names := by
  induction rules generalizing skip with
  | nil => simp
  | cons first rules ih =>
      rw [List.foldl_cons, ih, NameSet.mem_names_extend, or_left_comm, ← or_assoc]
      simp

variable {readPattern : String → Option (String → Bool)} {settings : Settings}
  {path : Option String} {force : Bool}

theorem skipSetFor_of_inactive
    (inactive : force = false ∧ settings.skipping = false ∨ path = none) :
    settings.skipSetFor readPattern path force = .empty := by
  rcases inactive with ⟨unforced, off⟩ | rfl
  · simp [skipSetFor, unforced, off]
  · simp [skipSetFor]

/-- The names that are skipped are those that the rules about the document list. -/
theorem contains_skipSetFor_iff {name : String} :
    (settings.skipSetFor readPattern path force).contains name = true ↔
      (force = true ∨ settings.skipping = true) ∧ ∃ document ∈ path,
        ∃ rule ∈ settings.skipRules,
          rule.appliesTo readPattern document = true ∧ name ∈ rule.elements := by
  unfold skipSetFor
  rw [← Bool.or_eq_true]
  cases force || settings.skipping with
  | false => simp [NameSet.contains, NameSet.empty]
  | true =>
      cases path with
      | none => simp [NameSet.contains, NameSet.empty]
      | some document =>
          rw [if_pos rfl, NameSet.contains, List.contains_iff_mem, mem_names_foldl_extend]
          simp [NameSet.empty, and_assoc]

/--
Whatever patterns mean, the elements to skip are those that the rules about the document list, in
whatever order. There are none if skipping is neither on nor forced, or the document has no path.
What a path then shows is what it shows when nothing is skipped, less the segments of these elements.
-/
theorem skipSetFor_and_ofPath_eq_filter (readPattern : String → Option (String → Bool))
    (settings : Settings) (path : Option String) (force : Bool) :
    (force = false ∧ settings.skipping = false ∨ path = none →
        settings.skipSetFor readPattern path force = .empty) ∧
      (∀ name, (settings.skipSetFor readPattern path force).contains name = true ↔
        (force = true ∨ settings.skipping = true) ∧ ∃ document ∈ path,
          ∃ rule ∈ settings.skipRules,
            (∃ describes ∈ readPattern rule.filePattern, describes document = true) ∧
              name ∈ rule.elements) ∧
      ∀ text offset nameAttributes,
        Segment.ofPath text (Element.enclosingIn text offset)
            (settings.skipSetFor readPattern path force) nameAttributes =
          (Segment.ofPath text (Element.enclosingIn text offset) .empty nameAttributes).filter
            fun segment => !(settings.skipSetFor readPattern path force).contains segment.tag := by
  refine ⟨skipSetFor_of_inactive, ?_, fun text offset => Segment.ofPath_eq_filter text _ _⟩
  intro name
  simp only [contains_skipSetFor_iff, SkipRule.appliesTo_iff]

/-- Counting goes on in the skipped `s`, and a rule that is no pattern is passed over. -/
theorem skipSetFor_and_ofPath_of_skipped_parent :
    ∃ settings : Settings, settings.skipping = false ∧
      settings.skipRules =
        [⟨"[", ["r"]⟩, ⟨"**/*.xsd", ["t", "s", "s"]⟩, ⟨"*.xml", ["a"]⟩] ∧
      (settings.skipSetFor Query.Library.standard.readPattern (some "a/b.xsd") true).contains "s" =
        true ∧
      (Segment.ofPath "<r><s><a/></s><s><b/><a/><a/></s></r>"
        (Element.enclosingIn "<r><s><a/></s><s><b/><a/><a/></s></r>" 28)
        (settings.skipSetFor Query.Library.standard.readPattern (some "a/b.xsd") true) []).map
          (fun segment => (segment.tag, segment.index)) = [("r", 1), ("a", 2)] := by
  refine ⟨{ skipRules := [⟨"[", ["r"]⟩, ⟨"**/*.xsd", ["t", "s", "s"]⟩, ⟨"*.xml", ["a"]⟩] },
    rfl, rfl, ?_, ?_⟩
  · apply ((skipSetFor_and_ofPath_eq_filter _ _ _ _).2.1 "s").mpr
    refine ⟨Or.inl rfl, _, rfl, _, List.mem_cons_of_mem _ List.mem_cons_self, ?_, by simp⟩
    exact SkipRule.appliesTo_iff.mp (by decide +kernel)
  · rw [(skipSetFor_and_ofPath_eq_filter _ _ _ _).2.2]
    decide +kernel

end Settings

end MarkupPath
