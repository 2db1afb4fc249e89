import MarkupPath.Proofs.Element.Segment
import MarkupPath.Proofs.Tree.Node

/-!
# Places in a tree

A place in a tree is told by the elements around it, from the root down, each
with the children before the place and those after it. The tags of the text
before a place leave open exactly these elements, so the chain of an element's
start tag is the list of the elements around it, and its number under each of
them is its place among the children of its name.
-/

namespace MarkupPath.Tree

open Occurrence (opened started chain)

/-- An element around a place in a tree, with its children before and after the place. -/
structure Level where
  header : Header
  left : List Node
  right : List Node

/-- The tree with a node at the place to which the levels lead, from the root down. -/
def plug : List Level → Node → Node
  | [], node => node
  | level :: inner, node =>
      .element level.header (level.left ++ plug inner node :: level.right)

namespace Level

/-- The text from the level's start tag up to the place. -/
def textBefore (level : Level) : List Char :=
  level.header.startText false ++ Node.writeAll level.left

/-- The tags of this text. -/
def tagsBefore (level : Level) (position : Position) : List Tag :=
  level.header.startTag false position ::
    Node.tagsOfAll (position.advanceOver (level.header.startText false)) level.left

end Level

/-- The text of a tree up to a place. -/
def textBefore (levels : List Level) : List Char :=
  levels.flatMap Level.textBefore

/-- The tags of the text up to a place. -/
def tagsBefore (position : Position) : List Level → List Tag
  | [] => []
  | level :: inner =>
      level.tagsBefore position ++ tagsBefore (position.advanceOver level.textBefore) inner

/-- The segment of an element that stands behind these children of its parent. -/
def segment (names : List String) (before : List Node) (header : Header) : Segment where
  tag := String.ofList header.name
  index := before.countP (·.isNamed (String.ofList header.name)) + 1
  name := header.firstFilled names
  index_pos := Nat.succ_pos _

/-- The segments of the elements around a place and of the one that stands there. -/
def segments (names : List String) (before : List Node) : List Level → Header → List Segment
  | [], header => [segment names before header]
  | level :: inner, header =>
      segment names before level.header :: segments names level.left inner header

theorem textBefore_concat (levels : List Level) (level : Level) :
    textBefore (levels ++ [level]) = textBefore levels ++ level.textBefore := by
  simp [textBefore]

theorem tagsBefore_concat (position : Position) (levels : List Level) (level : Level) :
    tagsBefore position (levels ++ [level]) =
      tagsBefore position levels ++
        level.tagsBefore (position.advanceOver (textBefore levels)) := by
  induction levels generalizing position with
  | nil => simp [tagsBefore, textBefore]
  | cons outer levels ih => simp [tagsBefore, textBefore, ih]

theorem exists_write_plug (levels : List Level) (node : Node) :
    ∃ after, (plug levels node).write = textBefore levels ++ (node.write ++ after) := by
  induction levels with
  | nil => exact ⟨[], by simp [plug, textBefore]⟩
  | cons level inner ih =>
      rcases ih with ⟨after, written⟩
      refine ⟨after ++ Node.writeAll level.right ++ level.header.endText, ?_⟩
      rw [plug, Node.write_of_children level.header (by simp)]
      simp [Node.writeAll, written, textBefore, Level.textBefore]

theorem scanAt_level (level : Level) (position : Position) (rest : List Char) :
    Tag.scanAt position (level.textBefore ++ rest) =
      level.tagsBefore position ++ Tag.scanAt (position.advanceOver level.textBefore) rest := by
  rw [Level.textBefore, List.append_assoc, level.header.scanAt_startText, Node.scanAt_writeAll,
    Level.tagsBefore, Position.advanceOver_append, List.cons_append]

theorem scanAt_textBefore (levels : List Level) (position : Position) (rest : List Char) :
    Tag.scanAt position (textBefore levels ++ rest) =
      tagsBefore position levels ++
        Tag.scanAt (position.advanceOver (textBefore levels)) rest := by
  induction levels generalizing position with
  | nil => rfl
  | cons level inner ih =>
      rw [textBefore, List.flatMap_cons, ← textBefore, List.append_assoc, scanAt_level, ih,
        tagsBefore, List.append_assoc, Position.advanceOver_append]

theorem stop_le_of_mem_tagsBefore {levels : List Level} {position : Position} {tag : Tag}
    (member : tag ∈ tagsBefore position levels) :
    tag.stop ≤ (position.advanceOver (textBefore levels)).offset := by
  have scanned := scanAt_textBefore levels position []
  rw [List.append_nil, Tag.scanAt, List.append_nil] at scanned
  exact Tag.stop_le_of_mem_scanAt scanned tag member

/-- The tags so far are met under the innermost open element as these children are. -/
structure Agrees (tags : List Tag) (before : List Node) : Prop where
  started_eq : ∀ name, started tags (opened tags).innermost? name =
    before.countP (·.isNamed name)
  top : (opened tags).innermost? = none → before = []

theorem agrees_nil : Agrees [] [] :=
  ⟨fun _ => rfl, fun _ => rfl⟩

theorem opened_level (tags : List Tag) (level : Level) (position : Position) :
    opened (tags ++ level.tagsBefore position) =
      (opened tags).push ⟨level.header.startTag false position, tags.length⟩ := by
  have inside := Node.balanced_tagsOfAll level.left
    (position.advanceOver (level.header.startText false))
  rw [Level.tagsBefore, List.append_cons, inside.opened_eq, Occurrence.opened_concat,
    Occurrence.openAfter, level.header.kind_startTag]
  rfl

theorem agrees_level (tags : List Tag) (level : Level) (position : Position) :
    Agrees (tags ++ level.tagsBefore position) level.left := by
  have innermost : (opened (tags ++ level.tagsBefore position)).innermost? =
      some ⟨level.header.startTag false position, tags.length⟩ := by
    rw [opened_level]
    rfl
  refine ⟨?_, fun none => nomatch innermost.symm.trans none⟩
  intro name
  have own : (opened (tags ++ [level.header.startTag false position])).innermost? =
      some ⟨level.header.startTag false position, tags.length⟩ := by
    rw [Occurrence.opened_concat, Occurrence.openAfter, level.header.kind_startTag]
    rfl
  have inside := Node.balanced_tagsOfAll level.left
    (position.advanceOver (level.header.startText false))
  have counted := inside.started_eq (tags ++ [level.header.startTag false position])
    (some ⟨level.header.startTag false position, tags.length⟩) (by simp) name
  have unmet : started (tags ++ [level.header.startTag false position])
      (some ⟨level.header.startTag false position, tags.length⟩) name = 0 :=
    Occurrence.started_eq_zero (by simp) name
  rw [innermost, Level.tagsBefore, List.append_cons, counted, unmet, if_pos own, Nat.zero_add]

variable {names : List String} {header : Header} {childless : Bool} {position : Position}

/-- The segment of a start tag is that of the element behind the children met so far. -/
theorem ofOccurrence_eq {whole tags after : List Tag} {before : List Node}
    (found : whole = tags ++ header.startTag childless position :: after)
    (agrees : Agrees tags before) :
    Segment.ofOccurrence whole names ⟨header.startTag childless position, tags.length⟩ =
      segment names before header := by
  subst found
  have start := header.isStartTag_startTag childless position
  have index : max 1 (Occurrence.shownIndex (tags ++ header.startTag childless position :: after)
      ⟨header.startTag childless position, tags.length⟩) =
        before.countP (·.isNamed (String.ofList header.name)) + 1 := by
    cases innermost : (opened tags).innermost? with
    | none =>
        rw [Occurrence.shownIndex_of_top (by rw [Occurrence.parent?_length, innermost]),
          agrees.top innermost]
        rfl
    | some parent =>
        rw [Occurrence.shownIndex_of_parent (by rw [Occurrence.parent?_length, innermost]),
          Occurrence.siblingNumber_length after start, agrees.started_eq,
          Nat.max_eq_right (Nat.succ_pos _)]
        rfl
  simp only [Segment.ofOccurrence, Segment.ofParts, index, segment, header.firstFilled_startTag]
  rfl

/-- Up to a place, the open elements have the segments of the elements around the place. -/
theorem map_opened_eq (names : List String) (tags : List Tag) {whole after : List Tag}
    {before : List Node} {levels : List Level} {origin : Position}
    (found : whole =
      (tags ++ tagsBefore origin levels) ++ header.startTag childless position :: after)
    (agrees : Agrees tags before) :
    ((opened (tags ++ tagsBefore origin levels)).toList ++
        [(⟨header.startTag childless position, (tags ++ tagsBefore origin levels).length⟩ :
          Occurrence)]).map (Segment.ofOccurrence whole names) =
      (opened tags).toList.map (Segment.ofOccurrence whole names) ++
        segments names before levels header := by
  induction levels generalizing tags before origin with
  | nil =>
      rw [tagsBefore, List.append_nil] at found ⊢
      rw [List.map_append, List.map_singleton, ofOccurrence_eq found agrees, segments]
  | cons level inner ih =>
      rw [tagsBefore, ← List.append_assoc] at found ⊢
      have here : whole = tags ++ level.header.startTag false origin ::
          (Node.tagsOfAll (origin.advanceOver (level.header.startText false)) level.left ++
            (tagsBefore (origin.advanceOver level.textBefore) inner ++
              header.startTag childless position :: after)) := by
        rw [found, Level.tagsBefore]
        simp
      rw [ih (tags ++ level.tagsBefore origin) found (agrees_level tags level origin), opened_level,
        Ancestry.toList_push, List.map_append, List.map_singleton, ofOccurrence_eq here agrees,
        segments, List.append_assoc]
      rfl

/-- The chain of an element's start tag has the segments of the elements around it and its own. -/
theorem map_chain_eq {whole after : List Tag} {levels : List Level}
    (found : whole = tagsBefore .origin levels ++ header.startTag childless position :: after) :
    (chain whole ⟨header.startTag childless position, (tagsBefore .origin levels).length⟩).map
        (Segment.ofOccurrence whole names) =
      segments names [] levels header := by
  have mapped := map_opened_eq names [] found agrees_nil
  rw [chain]
  conv_lhs => rw [found, List.take_left, ← found]
  simpa using mapped

end MarkupPath.Tree
