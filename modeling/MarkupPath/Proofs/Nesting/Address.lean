import MarkupPath.Proofs.Nesting.Numbering

/-!
# Addresses

The label of an element is its name with its number among its siblings. The
labels of the elements around it, from its own to the outermost, are its address.
No two elements have the same address, so two places of a list of tags have the
same parent if the same labels surround them. The tags after an element change
nothing about its address.
-/

namespace MarkupPath.Occurrence

/-- The start tags of a list. -/
def starts (tags : List Tag) : List Occurrence :=
  (all tags).filter (·.tag.isStartTag)

theorem mem_starts {tags : List Tag} {occurrence : Occurrence} :
    occurrence ∈ starts tags ↔ occurrence ∈ all tags ∧ occurrence.tag.isStartTag = true :=
  List.mem_filter

theorem exists_mem_starts {tags : List Tag} {tag : Tag} (member : tag ∈ tags)
    (start : tag.isStartTag = true) : ∃ occurrence ∈ starts tags, occurrence.tag = tag := by
  rcases List.append_of_mem member with ⟨before, after, split⟩
  exact ⟨⟨tag, before.length⟩, mem_starts.mpr ⟨mem_all_of_split split, start⟩, rfl⟩

theorem exists_chain_eq_cons (tags : List Tag) (occurrence : Occurrence) :
    ∃ outermost inner, chain tags occurrence = outermost :: inner :=
  List.exists_cons_of_ne_nil (by simp [chain])

theorem all_pairwise (tags : List Tag) :
    (all tags).Pairwise fun earlier later => earlier.place < later.place := by
  rw [List.pairwise_iff_getElem]
  intro first second firstBound secondBound order
  simpa [all] using order

theorem starts_pairwise (tags : List Tag) :
    (starts tags).Pairwise fun earlier later => earlier.place < later.place :=
  (all_pairwise tags).filter _

theorem starts_concat (tags : List Tag) (tag : Tag) :
    starts (tags ++ [tag]) =
      starts tags ++ if tag.isStartTag then [⟨tag, tags.length⟩] else [] := by
  rw [starts, all_concat, List.filter_append, List.filter_singleton, starts]
  cases tag.isStartTag <;> rfl

theorem map_tag_starts (tags : List Tag) :
    (starts tags).map (·.tag) = tags.filter (·.isStartTag) := by
  have untagged : (all tags).map (·.tag) = tags := by
    apply List.ext_getElem
    · simp [all]
    · intro place _ _
      simp [all]
  conv_rhs => rw [← untagged, List.filter_map]
  rfl

def label (tags : List Tag) (occurrence : Occurrence) : String × Nat :=
  (occurrence.tag.name, siblingNumber tags occurrence)

/-- The labels of the elements that are open before a place, from the innermost. -/
def surroundings (tags : List Tag) (place : Nat) : List (String × Nat) :=
  (opened (tags.take place)).innermostFirst.map (label tags)

def address (tags : List Tag) (occurrence : Occurrence) : List (String × Nat) :=
  label tags occurrence :: surroundings tags occurrence.place

variable {tags : List Tag} {occurrence : Occurrence}

theorem address_eq_map (tags : List Tag) (occurrence : Occurrence) :
    address tags occurrence = (lineage tags occurrence).map (label tags) :=
  rfl

theorem map_label_chain (tags : List Tag) (occurrence : Occurrence) :
    (chain tags occurrence).map (label tags) = (address tags occurrence).reverse := by
  rw [address_eq_map, ← reverse_chain, List.map_reverse, List.reverse_reverse]

theorem alike_iff {first second : Occurrence} :
    Alike tags first second ↔ address tags first = address tags second := by
  rw [address_eq_map, address_eq_map, ← List.forall₂_eq_eq_eq, List.forall₂_map_left_iff,
    List.forall₂_map_right_iff, Alike]
  simp only [label, Prod.mk.injEq]

theorem eq_of_address_eq {first second : Occurrence} (firstStarts : first ∈ starts tags)
    (secondStarts : second ∈ starts tags) (same : address tags first = address tags second) :
    first = second := by
  rcases mem_starts.mp firstStarts with ⟨firstMem, firstStart⟩
  rcases mem_starts.mp secondStarts with ⟨secondMem, secondStart⟩
  exact (alike_iff.mpr same).eq firstMem secondMem firstStart secondStart

theorem mem_starts_of_mem_chain {ancestor : Occurrence} (inStarts : occurrence ∈ starts tags)
    (inChain : ancestor ∈ chain tags occurrence) : ancestor ∈ starts tags := by
  rcases mem_starts.mp inStarts with ⟨member, start⟩
  exact mem_starts.mpr (mem_all_of_mem_lineage member start (mem_lineage_of_mem_chain inChain))

theorem outermost_mem_starts (inStarts : occurrence ∈ starts tags) {outermost : Occurrence}
    {inner : List Occurrence} (split : chain tags occurrence = outermost :: inner) :
    outermost ∈ starts tags := by
  apply mem_starts_of_mem_chain inStarts
  rw [split]
  exact List.mem_cons_self

theorem parent?_outermost {outermost : Occurrence} {inner : List Occurrence}
    (split : chain tags occurrence = outermost :: inner) :
    parent? tags outermost.place = none := by
  have inChain : outermost ∈ chain tags occurrence := split ▸ List.mem_cons_self
  exact (top_iff_of_chain split inChain).mpr rfl

theorem exists_openedInside_of_parent {place : Nat} {parent : Occurrence}
    (above : parent? tags place = some parent) :
    ∃ outer, (opened (tags.take place)).innermostFirst = parent :: outer ∧
      OpenedInside tags parent outer := by
  rcases List.head?_eq_some_iff.mp above with ⟨outer, isOpen⟩
  have inside := (openedInside_of_innermost isOpen).append (tags.drop place)
  rw [List.take_append_drop] at inside
  exact ⟨outer, isOpen, inside⟩

theorem mem_starts_of_parent {place : Nat} {parent : Occurrence}
    (above : parent? tags place = some parent) : parent ∈ starts tags := by
  rcases exists_openedInside_of_parent above with ⟨outer, -, inside⟩
  rw [mem_starts]
  exact ⟨inside.member, by simp [Tag.isStartTag, inside.opening]⟩

theorem surroundings_of_parent {place : Nat} {parent : Occurrence}
    (above : parent? tags place = some parent) :
    surroundings tags place = address tags parent := by
  rcases exists_openedInside_of_parent above with ⟨outer, isOpen, inside⟩
  rw [surroundings, isOpen, address_eq_map, lineage, inside.surroundings]

theorem surroundings_of_top {place : Nat} (atTop : parent? tags place = none) :
    surroundings tags place = [] := by
  rw [parent?, Ancestry.innermost?, List.head?_eq_none_iff] at atTop
  rw [surroundings, atTop, List.map_nil]

/-- Two places have the same parent if the same labels surround them. -/
theorem parent?_eq_iff {first second : Nat} :
    parent? tags first = parent? tags second ↔
      surroundings tags first = surroundings tags second := by
  cases firstAbove : parent? tags first with
  | none =>
      cases secondAbove : parent? tags second with
      | none => simp [surroundings_of_top firstAbove, surroundings_of_top secondAbove]
      | some other =>
          simp [surroundings_of_top firstAbove, surroundings_of_parent secondAbove, address]
  | some parent =>
      cases secondAbove : parent? tags second with
      | none => simp [surroundings_of_parent firstAbove, surroundings_of_top secondAbove, address]
      | some other =>
          rw [surroundings_of_parent firstAbove, surroundings_of_parent secondAbove,
            Option.some.injEq]
          constructor
          · rintro rfl
            rfl
          · intro same
            exact eq_of_address_eq (mem_starts_of_parent firstAbove)
              (mem_starts_of_parent secondAbove) same

theorem siblingNumber_append (more : List Tag) (met : occurrence.place < tags.length) :
    siblingNumber (tags ++ more) occurrence = siblingNumber tags occurrence := by
  rw [siblingNumber, List.take_append_of_le_length met, parent?_append more (Nat.le_of_lt met),
    siblingNumber]

theorem surroundings_append (more : List Tag) {place : Nat} (within : place ≤ tags.length) :
    surroundings (tags ++ more) place = surroundings tags place := by
  rw [surroundings, List.take_append_of_le_length within, surroundings]
  apply List.map_congr_left
  intro around isOpen
  have earlier := place_lt_of_mem_opened isOpen
  rw [List.length_take, Nat.lt_min] at earlier
  rw [label, siblingNumber_append more earlier.2, label]

theorem address_append (more : List Tag) (met : occurrence.place < tags.length) :
    address (tags ++ more) occurrence = address tags occurrence := by
  rw [address, label, siblingNumber_append more met,
    surroundings_append more (Nat.le_of_lt met), address, label]

theorem map_address_starts_append (tags more : List Tag) :
    (starts tags).map (address (tags ++ more)) = (starts tags).map (address tags) := by
  apply List.map_congr_left
  intro occurrence inStarts
  exact address_append more (place_lt_of_mem_all (mem_starts.mp inStarts).1)

/-- An element is not open any more where another one starts at the top level. -/
theorem not_mem_opened_of_top {outermost top : Occurrence} {place : Nat} (topMem : top ∈ all tags)
    (atTop : parent? tags top.place = none) (order : outermost.place < top.place)
    (behind : top.place ≤ place) : outermost ∉ (opened (tags.take place)).innermostFirst := by
  have bound := Nat.le_of_lt (place_lt_of_mem_all topMem)
  rw [parent?, Ancestry.innermost?, List.head?_eq_none_iff] at atTop
  have met : outermost.place < (tags.take top.place).length := by
    rwa [List.length_take, Nat.min_eq_left bound]
  have closed : outermost ∉ (opened (tags.take top.place)).innermostFirst := by
    rw [atTop]
    exact List.not_mem_nil
  have notOpen := not_mem_opened_append met closed ((tags.take place).drop top.place)
  have upToTop : tags.take top.place = (tags.take place).take top.place := by
    rw [List.take_take, Nat.min_eq_left behind]
  rwa [upToTop, List.take_append_drop] at notOpen

theorem place_le_of_mem_chain {ancestor : Occurrence}
    (inChain : ancestor ∈ chain tags occurrence) : ancestor.place ≤ occurrence.place := by
  rcases List.mem_cons.mp (mem_lineage_of_mem_chain inChain) with rfl | isOpen
  · exact Nat.le_refl _
  · have earlier := place_lt_of_mem_opened isOpen
    rw [List.length_take, Nat.lt_min] at earlier
    exact Nat.le_of_lt earlier.1

/-- What is in one top-level element starts before all that is in a later one. -/
theorem place_lt_of_outermost {first second outermost other : Occurrence}
    {inner others : List Occurrence} (secondStarts : second ∈ starts tags)
    (firstSplit : chain tags first = outermost :: inner)
    (secondSplit : chain tags second = other :: others) (order : outermost.place < other.place) :
    first.place < second.place := by
  have otherIn : other ∈ chain tags second := secondSplit ▸ List.mem_cons_self
  have outermostIn : outermost ∈ chain tags first := firstSplit ▸ List.mem_cons_self
  have otherMem := (mem_starts.mp (outermost_mem_starts secondStarts secondSplit)).1
  have other_le := place_le_of_mem_chain otherIn
  apply Nat.lt_of_not_le
  intro behind
  rcases List.mem_cons.mp (mem_lineage_of_mem_chain outermostIn) with rfl | isOpen
  · omega
  · exact not_mem_opened_of_top otherMem (parent?_outermost secondSplit) order
      (Nat.le_trans other_le behind) isOpen

end MarkupPath.Occurrence
