import MarkupPath.Proofs.Element.Cursor
import MarkupPath.Proofs.Element.SiblingIndex

/-!
# Sibling indexes as counts

Wherever a cursor stands, the elements around it are the chain of a start tag of
the text, or there are none. So the index of an element below the top of a path
can be had without reading the text a second time: it is one more than the number
of the start tags of its name that are met before it while its parent is the
innermost open element. An element with a name that is left out gets the index
one, because it is never counted.
-/

namespace MarkupPath

theorem exists_split_of_getElem? {α : Type} {list : List α} {place : Nat} {first second : α}
    (firstAt : list[place]? = some first) (secondAt : list[place + 1]? = some second) :
    ∃ front back, list = front ++ first :: second :: back ∧ front.length = place := by
  rcases exists_append_of_getElem? firstAt with ⟨front, rest, rfl, rfl⟩
  cases rest with
  | nil => simp at secondAt
  | cons next back =>
      have same : next = second := by simpa using secondAt
      exact ⟨front, back, by rw [same], rfl⟩

namespace Occurrence

/-- What is open after a part of the tags is the chain of the innermost element. -/
theorem chain_of_opened {before : List Tag} {innermost : Occurrence} {outer : List Occurrence}
    (isOpen : (opened before).innermostFirst = innermost :: outer) (after : List Tag) :
    innermost ∈ starts (before ++ after) ∧
      chain (before ++ after) innermost = (opened before).toList := by
  have inside := (openedInside_of_innermost isOpen).append after
  constructor
  · exact mem_starts.mpr ⟨inside.member, by simp [Tag.isStartTag, inside.opening]⟩
  · simp [chain, Ancestry.toList, inside.surroundings, isOpen]

end Occurrence

namespace Element

open Occurrence (all starts started opened parent? chain around siblingNumber touching)

/-- The elements around an offset are the chain of the innermost of them, if there are any. -/
theorem enclosingIn_eq_nil_or_chain (text : String) (offset : Nat) :
    enclosingIn text offset = [] ∨
      ∃ innermost ∈ starts (Tag.scan text),
        enclosingIn text offset = (chain (Tag.scan text) innermost).map ofOccurrence := by
  rcases Tag.exists_cut text offset with ⟨ended, touched, beyond, cut⟩
  rw [cut.enclosingIn_eq, around, cut.filter_stop_lt]
  cases last : (touching (Tag.scan text) offset).getLast? with
  | some innermost =>
      right
      exact ⟨innermost, (Occurrence.mem_starts_of_last_touching last).1, rfl⟩
  | none =>
      cases isOpen : (opened ended).innermostFirst with
      | nil =>
          left
          simp [Ancestry.toList, isOpen]
      | cons innermost outer =>
          right
          rcases Occurrence.chain_of_opened isOpen (touched ++ beyond) with ⟨inStarts, isChain⟩
          rw [← List.append_assoc, ← cut.split] at inStarts isChain
          refine ⟨innermost, inStarts, ?_⟩
          rw [isChain]

/-- The innermost element that is open before the tag at a place. -/
def innermostAt (tags : List Tag) (place : Nat) : Option Element :=
  ((tags.take place).foldl openAfter .empty).innermost?

/--
How many start tags with a name stand before an offset and are met while an element is the innermost
one that is open.
-/
def countBefore (tags : List Tag) (parent : Element) (name : String) (offset : Nat) : Nat :=
  (all tags).countP fun child =>
    child.tag.isStartTag && child.tag.offset < offset && child.tag.name = name &&
      innermostAt tags child.place = some parent

theorem innermostAt_eq_map (tags : List Tag) (place : Nat) :
    innermostAt tags place = (parent? tags place).map ofOccurrence := by
  rw [innermostAt, foldl_openAfter, Ancestry.innermost?, List.head?_map, parent?,
    Ancestry.innermost?]

/-- An element of a text comes from one occurrence alone. -/
theorem innermostAt_eq_some_iff {text : String} {place : Nat} {parent : Occurrence}
    (member : parent ∈ all (Tag.scan text)) :
    innermostAt (Tag.scan text) place = some (ofOccurrence parent) ↔
      parent? (Tag.scan text) place = some parent := by
  rw [innermostAt_eq_map, Option.map_eq_some_iff]
  constructor
  · rintro ⟨other, above, same⟩
    have otherMem := (Occurrence.mem_starts.mp (Occurrence.mem_starts_of_parent above)).1
    have sameStart : other.tag.start = parent.tag.start := congrArg Element.start same
    rw [above, Tag.eq_of_start_eq otherMem member sameStart]
  · intro above
    exact ⟨parent, above, rfl⟩

/-- The start tags that are counted before a child are those that its number counts. -/
theorem countBefore_eq_started {text : String} {parent target : Occurrence} (name : String)
    (parentMem : parent ∈ all (Tag.scan text)) (targetMem : target ∈ all (Tag.scan text)) :
    countBefore (Tag.scan text) (ofOccurrence parent) name target.tag.offset =
      started ((Tag.scan text).take target.place) (some parent) name := by
  rcases Occurrence.exists_split targetMem with ⟨before, after, split, place⟩
  have halves : all (Tag.scan text) =
      all before ++ (target.tag :: after).mapIdx fun index tag => ⟨tag, index + before.length⟩ := by
    rw [split, all, List.mapIdx_append, all]
  have inScan : ∀ occurrence ∈ all before, occurrence ∈ all (Tag.scan text) := by
    intro occurrence member
    rw [halves]
    exact List.mem_append_left _ member
  -- From the target on, no tag stands before it.
  have none_behind : ((target.tag :: after).mapIdx fun index tag =>
      (⟨tag, index + before.length⟩ : Occurrence)).countP (fun child =>
        child.tag.isStartTag && child.tag.offset < target.tag.offset && child.tag.name = name &&
          innermostAt (Tag.scan text) child.place = some (ofOccurrence parent)) = 0 := by
    rw [List.countP_eq_zero]
    intro child member
    have childMem : child ∈ all (Tag.scan text) := by
      rw [halves]
      exact List.mem_append_right _ member
    rcases List.mem_mapIdx.mp member with ⟨index, bound, rfl⟩
    have behind := (Tag.offset_le_iff_place_le targetMem childMem).mpr
      (place ▸ Nat.le_add_left _ _)
    simp [Nat.not_lt.mpr behind]
  rw [countBefore, halves, List.countP_append, none_behind, Nat.add_zero, place, split,
    List.take_left, started]
  apply List.countP_congr
  intro child member
  have within := Occurrence.place_lt_of_mem_all member
  have earlier := Tag.offset_lt_of_place_lt (inScan child member) targetMem (place ▸ within)
  have above := Occurrence.parent?_append (target.tag :: after) (Nat.le_of_lt within)
  simp only [Bool.and_eq_true, decide_eq_true_eq, ← split, innermostAt_eq_some_iff parentMem,
    earlier, and_true]
  rw [split, above]

/-- An element with a name that is left out is not found among its siblings. -/
theorem indexAmong_of_skipped {parent target : Element} {skip : NameSet}
    (skipped : skip.contains target.name = true) (nested : Ancestry String) (count : Nat)
    (tags : List Tag) : indexAmong parent target skip nested count tags = none := by
  have uncounted : ∀ opened tag, target.countsFor skip opened tag = false := by
    intro opened tag
    by_cases sameName : tag.name = target.name
    · simp [countsFor, sameName, skipped]
    · simp [countsFor, sameName]
  induction tags generalizing nested count with
  | nil => rfl
  | cons tag rest ih =>
      simp only [indexAmong, uncounted, Bool.false_eq_true, if_false, ih, ite_self]

/-- The index of an element whose name is shown is one more than the count before it. -/
theorem siblingIndex_of_shown {text : String} {offset place : Nat} {skip : NameSet}
    {parent target : Element} (parentAt : (enclosingIn text offset)[place]? = some parent)
    (targetAt : (enclosingIn text offset)[place + 1]? = some target)
    (shown : skip.contains target.name = false) :
    siblingIndex text (enclosingIn text offset) (place + 1) skip =
      1 + countBefore (Tag.scan text) parent target.name target.offset := by
  rcases enclosingIn_eq_nil_or_chain text offset with isNil | ⟨innermost, inStarts, isChain⟩
  · rw [isNil] at parentAt
    exact nomatch parentAt
  · rcases Occurrence.mem_starts.mp inStarts with ⟨member, start⟩
    rw [isChain, List.getElem?_map, Option.map_eq_some_iff] at parentAt targetAt
    rcases parentAt with ⟨parent, parentAt, rfl⟩
    rcases targetAt with ⟨target, targetAt, rfl⟩
    rcases exists_split_of_getElem? parentAt targetAt with ⟨front, back, split, rfl⟩
    rw [name_ofOccurrence] at shown
    have inChain : parent ∈ chain (Tag.scan text) innermost ∧
        target ∈ chain (Tag.scan text) innermost := by
      rw [split]
      simp
    have parentMem := (Occurrence.mem_starts.mp
      (Occurrence.mem_starts_of_mem_chain inStarts inChain.1)).1
    rcases Occurrence.mem_starts.mp (Occurrence.mem_starts_of_mem_chain inStarts inChain.2) with
      ⟨targetMem, targetStart⟩
    have above : parent? (Tag.scan text) target.place = some parent := by
      rw [List.append_cons] at split
      rw [Occurrence.parent?_of_chain split, List.getLast?_concat]
    rw [isChain, siblingIndex_of_chain member start split shown,
      Occurrence.siblingNumber_eq targetMem targetStart, above, name_ofOccurrence,
      offset_ofOccurrence, countBefore_eq_started _ parentMem targetMem, Nat.add_comm]

/--
The index of an element below the top of a path is one more than the number of earlier start tags of
its name under its parent, as the replay of the whole text has them, and one if its name is left
out. Whatever path is given with whatever text, an index is never zero.
-/
theorem siblingIndex_eq_countBefore (text : String) (offset : Nat) (skip : NameSet) :
    (∀ place parent target, (enclosingIn text offset)[place]? = some parent →
      (enclosingIn text offset)[place + 1]? = some target →
        siblingIndex text (enclosingIn text offset) (place + 1) skip =
          if skip.contains target.name then 1
          else 1 + countBefore (Tag.scan text) parent target.name target.offset) ∧
      ∀ path place, 1 ≤ siblingIndex text path place skip := by
  refine ⟨?_, fun path place => siblingIndex_pos text path place skip⟩
  intro place parent target parentAt targetAt
  cases shown : skip.contains target.name with
  | false => exact siblingIndex_of_shown parentAt targetAt shown
  | true => simp [siblingIndex, parentAt, targetAt, indexAmong_of_skipped shown]

/-- For the last `b`, neither the one at the top level counts nor the one in `c`. -/
theorem siblingIndex_in_unclosed :
    (enclosingIn "<b/><a><b/><c><b/></c></x><b>é" 30)[0]? =
        some (ofTag ⟨.opening, "a", .empty, ⟨4, 0, 4⟩, "<a>"⟩) ∧
      (enclosingIn "<b/><a><b/><c><b/></c></x><b>é" 30)[1]? =
        some (ofTag ⟨.opening, "b", .empty, ⟨26, 0, 26⟩, "<b>"⟩) ∧
      siblingIndex "<b/><a><b/><c><b/></c></x><b>é"
        (enclosingIn "<b/><a><b/><c><b/></c></x><b>é" 30) 1 (NameSet.ofList ["c"]) = 2 := by
  have parentAt : (enclosingIn "<b/><a><b/><c><b/></c></x><b>é" 30)[0]? =
      some (ofTag ⟨.opening, "a", .empty, ⟨4, 0, 4⟩, "<a>"⟩) := by
    decide +kernel
  have targetAt : (enclosingIn "<b/><a><b/><c><b/></c></x><b>é" 30)[1]? =
      some (ofTag ⟨.opening, "b", .empty, ⟨26, 0, 26⟩, "<b>"⟩) := by
    decide +kernel
  refine ⟨parentAt, targetAt, ?_⟩
  rw [(siblingIndex_eq_countBefore "<b/><a><b/><c><b/></c></x><b>é" 30
    (NameSet.ofList ["c"])).1 0 _ _ parentAt targetAt]
  decide +kernel

end Element

end MarkupPath
