import MarkupPath.Proofs.Tree.Context

/-!
# Paths in trees

At a cursor in the text of a tree, the path tells where in the tree the cursor
is: in the start tag of an element, or in the text right inside of it, the
segments are those of the elements from the root down to this one.
-/

namespace MarkupPath.Tree

open Text (byteLength)

/--
An offset in the text of a tree is at the element to which the levels lead: in its start tag, or
inside texts that follow each other among its children. The text of these begins right behind a tag
or a text and ends right before one.
-/
inductive IsAt (levels : List Level) (header : Header) (children : List Node) (offset : Nat) : Prop
  | inStartTag (reached : byteLength (textBefore levels) ≤ offset)
      (within : offset <
        byteLength (textBefore levels) + byteLength (header.startText children.isEmpty))
  | inTexts (left texts right : List Node) (split : children = left ++ (texts ++ right))
      (areTexts : ∀ node ∈ texts, node.isText = true)
      (reached : byteLength (textBefore (levels ++ [⟨header, left, texts ++ right⟩])) < offset)
      (within : offset < byteLength (textBefore (levels ++ [⟨header, left, texts ++ right⟩])) +
        byteLength (Node.writeAll texts))

variable {levels : List Level} {header : Header} {children : List Node} {names : List String}
  {offset : Nat}

theorem offset_origin_advanceOver (text : List Char) :
    (Position.origin.advanceOver text).offset = byteLength text := by
  rw [Position.offset_advanceOver]
  exact Nat.zero_add _

theorem exists_scan_plug (levels : List Level) (header : Header) (children : List Node) :
    ∃ after, Tag.scan (String.ofList (plug levels (.element header children)).write) =
      tagsBefore .origin levels ++
        header.startTag children.isEmpty (Position.origin.advanceOver (textBefore levels)) ::
          after := by
  rcases exists_write_plug levels (.element header children) with ⟨behind, written⟩
  rcases Node.exists_write_element header children with ⟨rest, element⟩
  rw [Tag.scan_eq_scanAt, String.toList_ofList, written, element, scanAt_textBefore,
    List.append_assoc, header.scanAt_startText]
  exact ⟨_, rfl⟩

theorem ofPath_inStartTag (reached : byteLength (textBefore levels) ≤ offset)
    (within : offset <
      byteLength (textBefore levels) + byteLength (header.startText children.isEmpty))
    {text : String} (isText : text = String.ofList (plug levels (.element header children)).write) :
    Segment.ofPath text (Element.enclosingIn text offset) .empty names =
      segments names [] levels header := by
  rcases exists_scan_plug levels header children with ⟨after, found⟩
  rw [← isText] at found
  have start := header.isStartTag_startTag children.isEmpty
    (Position.origin.advanceOver (textBefore levels))
  have offset_eq := offset_origin_advanceOver (textBefore levels)
  rw [Segment.ofPath_of_startTag found start, Segment.filter_unskipped, map_chain_eq found]
  · rw [← offset_eq] at reached
    exact reached
  · rw [Header.startTag, Tag.stop_toTag, Header.toList_startLexeme, Position.offset_advanceOver,
      offset_eq]
    exact within

/-- Between two tags, the path has the segments of the elements that are open there. -/
theorem ofPath_between {text : String} {level : Level} {after : List Tag}
    (whole : Tag.scan text = tagsBefore .origin (levels ++ [level]) ++ after)
    (ended : ∀ tag ∈ tagsBefore .origin (levels ++ [level]), tag.stop < offset)
    (beyond : ∀ tag ∈ after, offset < tag.offset) :
    Segment.ofPath text (Element.enclosingIn text offset) .empty names =
      segments names [] levels level.header := by
  have found := whole
  rw [tagsBefore_concat, Level.tagsBefore, List.append_assoc, List.cons_append] at found
  have innermost : (Occurrence.opened (tagsBefore .origin (levels ++ [level]))).toList =
      Occurrence.chain (Tag.scan text) ⟨level.header.startTag false
        (Position.origin.advanceOver (textBefore levels)), (tagsBefore .origin levels).length⟩ := by
    rw [tagsBefore_concat, opened_level, Ancestry.toList_push, Occurrence.chain, found,
      List.take_left]
  have start := level.header.isStartTag_startTag false
    (Position.origin.advanceOver (textBefore levels))
  rw [Element.enclosingIn_of_between whole ended beyond, innermost,
    Segment.ofPath_chain (Occurrence.mem_all_of_split found) start, Segment.filter_unskipped,
    map_chain_eq found]

theorem exists_write_texts (levels : List Level) (header : Header) (left right : List Node)
    {texts : List Node} (some : texts ≠ []) :
    ∃ after, (plug levels (.element header (left ++ (texts ++ right)))).write =
      textBefore (levels ++ [⟨header, left, texts ++ right⟩]) ++ (Node.writeAll texts ++ after) := by
  rcases exists_write_plug levels (.element header (left ++ (texts ++ right))) with
    ⟨behind, written⟩
  refine ⟨Node.writeAll right ++ header.endText ++ behind, ?_⟩
  rw [written, Node.write_of_children header (by simp [some]), textBefore_concat]
  simp [Level.textBefore]

theorem ofPath_inTexts {left texts right : List Node} (split : children = left ++ (texts ++ right))
    (areTexts : ∀ node ∈ texts, node.isText = true)
    (reached : byteLength (textBefore (levels ++ [⟨header, left, texts ++ right⟩])) < offset)
    (within : offset < byteLength (textBefore (levels ++ [⟨header, left, texts ++ right⟩])) +
      byteLength (Node.writeAll texts))
    {text : String} (isText : text = String.ofList (plug levels (.element header children)).write) :
    Segment.ofPath text (Element.enclosingIn text offset) .empty names =
      segments names [] levels header := by
  have some : texts ≠ [] := by
    rintro rfl
    simp only [Node.writeAll, byteLength] at within
    omega
  rcases exists_write_texts levels header left right some with
    ⟨after, written⟩
  rw [split, written] at isText
  have whole : Tag.scan text =
      tagsBefore .origin (levels ++ [⟨header, left, texts ++ right⟩]) ++
        Tag.scanAt ((Position.origin.advanceOver
          (textBefore (levels ++ [⟨header, left, texts ++ right⟩]))).advanceOver
            (Node.writeAll texts)) after := by
    rw [Tag.scan_eq_scanAt, isText, String.toList_ofList, scanAt_textBefore,
      Node.scanAt_writeAll, Node.tagsOfAll_of_isText areTexts, List.nil_append]
  have ended : ∀ tag ∈ tagsBefore .origin (levels ++ [⟨header, left, texts ++ right⟩]),
      tag.stop < offset := by
    intro tag member
    have stop_le := stop_le_of_mem_tagsBefore member
    rw [offset_origin_advanceOver] at stop_le
    omega
  have beyond : ∀ tag ∈ Tag.scanAt ((Position.origin.advanceOver
      (textBefore (levels ++ [⟨header, left, texts ++ right⟩]))).advanceOver
        (Node.writeAll texts)) after, offset < tag.offset := by
    intro tag member
    have offset_ge := ((Tag.offsets_of_scanAt rfl).1 tag member).1
    rw [Position.offset_advanceOver, offset_origin_advanceOver] at offset_ge
    omega
  exact ofPath_between whole ended beyond

/--
In the text of a tree, the path at an offset of an element has the segments of the elements from the
root down to this one, each with its name, its place among the children of this name and the first
filled one of the attributes that give names.
-/
theorem ofPath_enclosingIn_plug {levels : List Level} {header : Header} {children : List Node}
    {offset : Nat} (isAt : IsAt levels header children offset) (names : List String) :
    Segment.ofPath (String.ofList (plug levels (.element header children)).write)
        (Element.enclosingIn (String.ofList (plug levels (.element header children)).write) offset)
        .empty names =
      segments names [] levels header := by
  cases isAt with
  | inStartTag reached within => exact ofPath_inStartTag reached within rfl
  | inTexts left texts right split areTexts reached within =>
      exact ofPath_inTexts split areTexts reached within rfl

theorem ofPath_enclosingIn_second_child :
    ∃ levels header children, IsAt levels header children 23 ∧
      String.ofList (plug levels (.element header children)).write =
        "<a><b/>1>0<b name=\"x\">hi</b></a>" ∧
      Segment.ofPath "<a><b/>1>0<b name=\"x\">hi</b></a>"
          (Element.enclosingIn "<a><b/>1>0<b name=\"x\">hi</b></a>" 23) .empty ["name"] =
        [⟨"a", 1, none, by decide⟩, ⟨"b", 2, some "x", by decide⟩] := by
  have isAt : IsAt
      [⟨⟨"a".toList, [], by decide, by decide⟩,
        [.element ⟨"b".toList, [], by decide, by decide⟩ [], .text "1>0".toList (by decide)], []⟩]
      ⟨"b".toList, [⟨"name".toList, "x".toList, by decide, by decide, by decide⟩], by decide,
        by decide⟩
      [.text "hi".toList (by decide)] 23 := by
    refine IsAt.inTexts [] [.text "hi".toList (by decide)] [] rfl ?_ ?_ ?_
    · simp [Node.isText]
    · decide
    · decide
  exact ⟨_, _, _, isAt, rfl, ofPath_enclosingIn_plug isAt ["name"]⟩

end MarkupPath.Tree
