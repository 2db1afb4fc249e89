import MarkupPath.Proofs.Element.Labels
import MarkupPath.Proofs.Element.SiblingCount
import MarkupPath.XPath.Render

/-!
# The paths of ancestors

An element on the path to a cursor has a path of its own, which is found by
putting the cursor into its start tag. That path is the first part of the other
one: what was open when the element started is what stands before it on every
path that goes through it. So the segments are the same up to the element, and
the full path of the element begins every full path that leads into it.
-/

namespace MarkupPath

/-- The chain of an ancestor is the chain of the element up to the ancestor. -/
theorem Occurrence.chain_of_getElem? {tags : List Tag} {occurrence ancestor : Occurrence}
    {place : Nat} (ancestorAt : (chain tags occurrence)[place]? = some ancestor) :
    chain tags ancestor = (chain tags occurrence).take (place + 1) := by
  rcases exists_append_of_getElem? ancestorAt with ⟨outer, inner, split, rfl⟩
  rw [chain, Ancestry.toList, opened_of_chain split, List.reverse_reverse, split,
    List.take_length_add_append, List.take_succ_cons, List.take_zero]

namespace Element

/-- The path of every element on a path is the path up to this element. -/
theorem enclosingIn_ancestor {text : String} {offset place : Nat} {element : Element}
    (elementAt : (enclosingIn text offset)[place]? = some element) :
    enclosingIn text (element.offset + 1) = (enclosingIn text offset).take (place + 1) := by
  rcases enclosingIn_eq_nil_or_chain text offset with isNil | ⟨innermost, inStarts, isChain⟩
  · rw [isNil] at elementAt
    exact nomatch elementAt
  · rw [isChain, List.getElem?_map, Option.map_eq_some_iff] at elementAt
    rcases elementAt with ⟨ancestor, ancestorAt, rfl⟩
    have ancestorStarts :=
      Occurrence.mem_starts_of_mem_chain inStarts (List.mem_of_getElem? ancestorAt)
    rw [offset_ofOccurrence, enclosingIn_start ancestorStarts,
      Occurrence.chain_of_getElem? ancestorAt, isChain, List.map_take]

/-- The index of an element does not depend on what is below it on its path. -/
theorem siblingIndex_take (text : String) (path : List Element) {place count : Nat}
    (within : place < count) (skip : NameSet) :
    siblingIndex text (path.take count) place skip = siblingIndex text path place skip := by
  cases place with
  | zero => rfl
  | succ above =>
      have aboveWithin : above < count := Nat.lt_of_succ_lt within
      rw [siblingIndex, siblingIndex, List.getElem?_take_of_lt aboveWithin,
        List.getElem?_take_of_lt within]

end Element

namespace Segment

theorem getElem?_ofPath (text : String) (path : List Element) (nameAttributes : List String)
    (place : Nat) :
    (ofPath text path .empty nameAttributes)[place]? = path[place]?.map fun element =>
      ofElement text path .empty nameAttributes element place := by
  rw [ofPath_empty, List.getElem?_map, List.getElem?_zipIdx, Option.map_map]
  simp [Function.comp_def]

/-- The segments of the first elements of a path are the first of its segments. -/
theorem ofPath_take (text : String) (path : List Element) (nameAttributes : List String)
    (count : Nat) :
    ofPath text (path.take count) .empty nameAttributes =
      (ofPath text path .empty nameAttributes).take count := by
  apply List.ext_getElem?
  intro place
  rw [getElem?_ofPath]
  by_cases within : place < count
  · rw [List.getElem?_take_of_lt within, List.getElem?_take_of_lt within, getElem?_ofPath]
    simp only [ofElement, Element.siblingIndex_take text path within]
  · have beyond := Nat.le_of_not_lt within
    rw [List.getElem?_take_eq_none beyond, List.getElem?_take_eq_none beyond, Option.map_none]

end Segment

namespace XPath

/-- The first segments of a path give the beginning of the full path. -/
theorem exists_render_full_take (options : RenderOptions) (segments : List Segment) (count : Nat) :
    ∃ path below, Format.full.render? options (segments.take count) = some path ∧
      Format.full.render? options segments = some (path ++ below) := by
  refine ⟨_, String.join ((segments.drop count).map fullStep), rfl, ?_⟩
  rw [Format.render?, ← String.join_append, ← List.map_append, List.take_append_drop]

/--
Every element on the path at an offset has the path up to itself for its own, with the segments up
to itself, and its full path is the beginning of the full path at the offset.
-/
theorem ancestor_path_isPrefix {text : String} {offset place : Nat} {element : Element}
    (elementAt : (Element.enclosingIn text offset)[place]? = some element) :
    Element.enclosingIn text (element.offset + 1) =
        (Element.enclosingIn text offset).take (place + 1) ∧
      ∀ nameAttributes,
        Segment.allAt text (element.offset + 1) nameAttributes =
            (Segment.allAt text offset nameAttributes).take (place + 1) ∧
          ∀ options, ∃ path below,
            Format.full.render? options (Segment.allAt text (element.offset + 1) nameAttributes) =
                some path ∧
              Format.full.render? options (Segment.allAt text offset nameAttributes) =
                some (path ++ below) := by
  have ownPath := Element.enclosingIn_ancestor elementAt
  refine ⟨ownPath, ?_⟩
  intro nameAttributes
  have ownSegments : Segment.allAt text (element.offset + 1) nameAttributes =
      (Segment.allAt text offset nameAttributes).take (place + 1) := by
    rw [Segment.allAt, ownPath, Segment.ofPath_take, ← Segment.allAt]
  refine ⟨ownSegments, ?_⟩
  intro options
  rw [ownSegments]
  exact exists_render_full_take options _ _

/-- At the end of the text, nothing but the empty `b` has been closed. -/
theorem ancestor_path_of_unclosed :
    (Element.enclosingIn "<a><b/><b><c></b>é" 19)[1]? =
        some (.ofTag ⟨.opening, "b", .empty, ⟨7, 0, 7⟩, "<b>"⟩) ∧
      Element.enclosingIn "<a><b/><b><c></b>é" 8 =
        (Element.enclosingIn "<a><b/><b><c></b>é" 19).take 2 ∧
      ∃ below, Format.full.render? {} (Segment.allAt "<a><b/><b><c></b>é" 19 []) =
        some ("/a[1]/b[2]" ++ below) := by
  have elementAt : (Element.enclosingIn "<a><b/><b><c></b>é" 19)[1]? =
      some (.ofTag ⟨.opening, "b", .empty, ⟨7, 0, 7⟩, "<b>"⟩) := by
    decide +kernel
  have ownPath : Format.full.render? {} (Segment.allAt "<a><b/><b><c></b>é" 8 []) =
      some "/a[1]/b[2]" := by
    decide +kernel
  rcases ancestor_path_isPrefix elementAt with ⟨isTake, shown⟩
  rcases (shown []).2 {} with ⟨path, below, own, whole⟩
  refine ⟨elementAt, isTake, below, ?_⟩
  rw [whole, Option.some.inj (own.symm.trans ownPath)]

end XPath

end MarkupPath
