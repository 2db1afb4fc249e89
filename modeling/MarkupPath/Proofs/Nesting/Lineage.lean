import MarkupPath.Proofs.Nesting.Occurrence

/-!
# Lineages

The elements that are open at some place of a list of tags were each started by
an opening tag, and those outside of an open element are exactly the ones that
were open when it started. So an element, its parent, the parent's parent and so
on are a list of open elements that no later tag can change: the lineage of the
element.
-/

namespace MarkupPath.Occurrence

/-- The elements around an occurrence, from its own to the outermost. -/
def lineage (tags : List Tag) (occurrence : Occurrence) : List Occurrence :=
  occurrence :: (opened (tags.take occurrence.place)).innermostFirst

theorem reverse_chain (tags : List Tag) (occurrence : Occurrence) :
    (chain tags occurrence).reverse = lineage tags occurrence := by
  simp [chain, lineage, Ancestry.toList]

/-- A tag puts its own element on top of the open ones, or takes the topmost away, or does neither. -/
theorem openAfter_cases (opened : Ancestry Occurrence) (occurrence : Occurrence) :
    (occurrence.tag.kind = .opening ∧
        (openAfter opened occurrence).innermostFirst = occurrence :: opened.innermostFirst) ∨
      ∃ closed, opened.innermostFirst = closed ++ (openAfter opened occurrence).innermostFirst := by
  cases kind : occurrence.tag.kind with
  | opening => exact Or.inl ⟨rfl, by simp [openAfter, kind, Ancestry.push]⟩
  | closing =>
      right
      simpa [openAfter, kind] using opened.exists_append_close occurrence.tag.name
  | selfClosing => exact Or.inr ⟨[], by simp [openAfter, kind]⟩

/-- An occurrence was started by an opening tag when exactly the elements of a list were open. -/
structure OpenedInside (tags : List Tag) (occurrence : Occurrence) (outer : List Occurrence) :
    Prop where
  member : occurrence ∈ all tags
  opening : occurrence.tag.kind = .opening
  surroundings : (opened (tags.take occurrence.place)).innermostFirst = outer

theorem OpenedInside.append {tags : List Tag} {occurrence : Occurrence} {outer : List Occurrence}
    (inside : OpenedInside tags occurrence outer) (more : List Tag) :
    OpenedInside (tags ++ more) occurrence outer := by
  have bound := place_lt_of_mem_all inside.member
  refine ⟨?_, inside.opening, ?_⟩
  · rw [mem_all, List.getElem?_append_left bound]
    exact mem_all.mp inside.member
  · rw [List.take_append_of_le_length (Nat.le_of_lt bound)]
    exact inside.surroundings

/-- What stands below an open element on the stack was open when the element started. -/
theorem openedInside_of_opened {tags : List Tag} {inner outer : List Occurrence}
    {occurrence : Occurrence}
    (isOpen : (opened tags).innermostFirst = inner ++ occurrence :: outer) :
    OpenedInside tags occurrence outer := by
  induction tags using List.reverseRecOn generalizing inner with
  | nil =>
      have impossible := congrArg List.length isOpen
      simp [Ancestry.empty] at impossible
  | append_singleton tags tag ih =>
      rw [opened_concat] at isOpen
      rcases openAfter_cases (opened tags) ⟨tag, tags.length⟩ with ⟨opening, pushed⟩ | ⟨closed, kept⟩
      · rw [pushed] at isOpen
        cases inner with
        | nil =>
            simp only [List.nil_append, List.cons.injEq] at isOpen
            rcases isOpen with ⟨rfl, surroundings⟩
            exact ⟨mem_all_of_split rfl, opening, by simpa using surroundings⟩
        | cons first inner =>
            simp only [List.cons_append, List.cons.injEq] at isOpen
            exact (ih isOpen.2).append [tag]
      · rw [isOpen, ← List.append_assoc] at kept
        exact (ih kept).append [tag]

theorem openedInside_of_innermost {tags : List Tag} {outer : List Occurrence}
    {occurrence : Occurrence} (isOpen : (opened tags).innermostFirst = occurrence :: outer) :
    OpenedInside tags occurrence outer := by
  have below : (opened tags).innermostFirst = [] ++ occurrence :: outer := isOpen
  exact openedInside_of_opened below

theorem openedInside_of_mem {tags : List Tag} {occurrence : Occurrence}
    (member : occurrence ∈ (opened tags).innermostFirst) :
    ∃ outer, OpenedInside tags occurrence outer := by
  rcases List.append_of_mem member with ⟨inner, outer, split⟩
  exact ⟨outer, openedInside_of_opened split⟩

theorem place_lt_of_mem_opened {tags : List Tag} {occurrence : Occurrence}
    (member : occurrence ∈ (opened tags).innermostFirst) : occurrence.place < tags.length := by
  rcases openedInside_of_mem member with ⟨outer, inside⟩
  exact place_lt_of_mem_all inside.member

theorem place_lt_of_opened {tags : List Tag} {inner outer : List Occurrence}
    {occurrence around : Occurrence}
    (isOpen : (opened tags).innermostFirst = inner ++ occurrence :: outer)
    (member : around ∈ outer) : around.place < occurrence.place := by
  have inside := openedInside_of_opened isOpen
  have earlier : around.place < (tags.take occurrence.place).length :=
    place_lt_of_mem_opened (inside.surroundings.symm ▸ member)
  exact Nat.lt_of_lt_of_le earlier (List.length_take_le _ _)

theorem place_lt_of_innermost {tags : List Tag} {outer : List Occurrence}
    {occurrence around : Occurrence} (isOpen : (opened tags).innermostFirst = occurrence :: outer)
    (member : around ∈ outer) : around.place < occurrence.place := by
  have below : (opened tags).innermostFirst = [] ++ occurrence :: outer := isOpen
  exact place_lt_of_opened below member

/-- An element that has been closed is never open again. -/
theorem not_mem_opened_append {tags : List Tag} {occurrence : Occurrence}
    (met : occurrence.place < tags.length)
    (closed : occurrence ∉ (opened tags).innermostFirst) (more : List Tag) :
    occurrence ∉ (opened (tags ++ more)).innermostFirst := by
  induction more using List.reverseRecOn with
  | nil => simpa using closed
  | append_singleton more tag ih =>
      rw [← List.append_assoc, opened_concat]
      rcases openAfter_cases (opened (tags ++ more)) ⟨tag, (tags ++ more).length⟩ with
        ⟨-, pushed⟩ | ⟨ended, kept⟩
      · rw [pushed, List.mem_cons]
        rintro (rfl | member)
        · simp only [List.length_append] at met
          omega
        · exact ih member
      · intro member
        apply ih
        rw [kept]
        exact List.mem_append_right ended member

/-- From each of its elements on, a lineage is the lineage of this element. -/
theorem lineage_of_split {tags : List Tag} {occurrence ancestor : Occurrence}
    {inner outer : List Occurrence}
    (split : lineage tags occurrence = inner ++ ancestor :: outer) :
    lineage tags ancestor = ancestor :: outer := by
  cases inner with
  | nil =>
      have same : occurrence = ancestor := by
        rw [lineage, List.nil_append, List.cons.injEq] at split
        exact split.1
      rw [← same] at split ⊢
      simpa using split
  | cons first inner =>
      rw [lineage, List.cons_append, List.cons.injEq] at split
      have whole := (openedInside_of_opened split.2).append (tags.drop occurrence.place)
      rw [List.take_append_drop] at whole
      rw [lineage, whole.surroundings]

/-- Every element of a lineage stands in the list and is started by its tag. -/
theorem mem_all_of_mem_lineage {tags : List Tag} {occurrence ancestor : Occurrence}
    (member : occurrence ∈ all tags) (start : occurrence.tag.isStartTag = true)
    (inLineage : ancestor ∈ lineage tags occurrence) :
    ancestor ∈ all tags ∧ ancestor.tag.isStartTag = true := by
  rcases List.mem_cons.mp inLineage with rfl | inLineage
  · exact ⟨member, start⟩
  · rcases openedInside_of_mem inLineage with ⟨outer, inside⟩
    have whole := inside.append (tags.drop occurrence.place)
    rw [List.take_append_drop] at whole
    exact ⟨whole.member, by simp [Tag.isStartTag, whole.opening]⟩

theorem mem_lineage_of_mem_chain {tags : List Tag} {occurrence ancestor : Occurrence}
    (inChain : ancestor ∈ chain tags occurrence) : ancestor ∈ lineage tags occurrence := by
  rw [← reverse_chain]
  exact List.mem_reverse.mpr inChain

/-- What stands before an element in a chain is what was open when the element started. -/
theorem opened_of_chain {tags : List Tag} {occurrence ancestor : Occurrence}
    {outer inner : List Occurrence}
    (split : chain tags occurrence = outer ++ ancestor :: inner) :
    (opened (tags.take ancestor.place)).innermostFirst = outer.reverse := by
  have reversed : lineage tags occurrence = inner.reverse ++ ancestor :: outer.reverse := by
    rw [← reverse_chain, split]
    simp
  have own := lineage_of_split reversed
  rw [lineage, List.cons.injEq] at own
  exact own.2

theorem parent?_of_chain {tags : List Tag} {occurrence ancestor : Occurrence}
    {outer inner : List Occurrence}
    (split : chain tags occurrence = outer ++ ancestor :: inner) :
    parent? tags ancestor.place = outer.getLast? := by
  rw [parent?, Ancestry.innermost?, opened_of_chain split, List.head?_reverse]

/-- Only the outermost element of a chain is at top level. -/
theorem top_iff_of_chain {tags : List Tag} {occurrence outermost element : Occurrence}
    {inner : List Occurrence} (split : chain tags occurrence = outermost :: inner)
    (inChain : element ∈ chain tags occurrence) :
    parent? tags element.place = none ↔ element = outermost := by
  constructor
  · intro atTop
    rcases List.append_of_mem inChain with ⟨front, back, around⟩
    rw [parent?_of_chain around, List.getLast?_eq_none_iff] at atTop
    rw [atTop, split, List.nil_append, List.cons.injEq] at around
    exact around.1.symm
  · rintro rfl
    have around : chain tags occurrence = [] ++ element :: inner := split
    exact parent?_of_chain around

/-- Where an element and its parent stand among the tags. -/
structure Family (tags : List Tag) (parent child : Occurrence) (outer : List Occurrence)
    (before between after : List Tag) : Prop where
  split : tags = before ++ parent.tag :: (between ++ child.tag :: after)
  parentPlace : parent.place = before.length
  childPlace : child.place = (before ++ parent.tag :: between).length
  opening : parent.tag.kind = .opening
  isOpen : (opened (before ++ [parent.tag])).innermostFirst = parent :: outer
  stillOpen : (opened (before ++ parent.tag :: between)).innermostFirst = parent :: outer

namespace Family

variable {tags before between after : List Tag} {parent child : Occurrence}
  {outer : List Occurrence}

theorem member (family : Family tags parent child outer before between after) :
    child ∈ all tags := by
  rw [family.split, ← List.cons_append, ← List.append_assoc, mem_all, family.childPlace]
  simp

theorem take_target (family : Family tags parent child outer before between after) :
    tags.take child.place = before ++ parent.tag :: between := by
  rw [family.split, ← List.cons_append, ← List.append_assoc, family.childPlace, List.take_left]

end Family

theorem exists_family {tags : List Tag} {parent child : Occurrence} {outer : List Occurrence}
    (member : child ∈ all tags)
    (parents : (opened (tags.take child.place)).innermostFirst = parent :: outer) :
    ∃ before between after, Family tags parent child outer before between after := by
  rcases exists_split member with ⟨upTo, after, rfl, childPlace⟩
  rw [childPlace, List.take_left] at parents
  have inside := openedInside_of_innermost parents
  rcases exists_split inside.member with ⟨before, between, rfl, parentPlace⟩
  have surroundings := inside.surroundings
  rw [parentPlace, List.take_left] at surroundings
  have isOpen : (opened (before ++ [parent.tag])).innermostFirst = parent :: outer := by
    rw [opened_concat, ← parentPlace, openAfter, inside.opening, ← surroundings]
    rfl
  exact ⟨before, between, after, by simp, parentPlace, childPlace, inside.opening, isOpen, parents⟩

/-- The lineage of an element goes on with the lineage of its parent. -/
theorem lineage_of_parent {tags : List Tag} {occurrence parent : Occurrence}
    (above : parent? tags occurrence.place = some parent) :
    lineage tags occurrence = occurrence :: lineage tags parent := by
  rcases List.head?_eq_some_iff.mp above with ⟨outer, isOpen⟩
  have split : lineage tags occurrence = [occurrence] ++ parent :: outer := by
    rw [lineage, isOpen, List.singleton_append]
  rw [lineage_of_split split, split, List.singleton_append]

theorem lineage_of_top {tags : List Tag} {occurrence : Occurrence}
    (atTop : parent? tags occurrence.place = none) : lineage tags occurrence = [occurrence] := by
  rw [parent?, Ancestry.innermost?, List.head?_eq_none_iff] at atTop
  rw [lineage, atTop]

theorem parent_place_lt {tags : List Tag} {occurrence parent : Occurrence}
    (above : parent? tags occurrence.place = some parent) : parent.place < occurrence.place := by
  have earlier := place_lt_of_mem_opened (List.mem_of_head? above)
  rw [List.length_take] at earlier
  omega

theorem mem_all_of_parent {tags : List Tag} {occurrence parent : Occurrence}
    (member : occurrence ∈ all tags) (start : occurrence.tag.isStartTag = true)
    (above : parent? tags occurrence.place = some parent) :
    parent ∈ all tags ∧ parent.tag.isStartTag = true := by
  apply mem_all_of_mem_lineage member start
  exact List.mem_cons_of_mem _ (List.mem_of_head? above)

end MarkupPath.Occurrence
