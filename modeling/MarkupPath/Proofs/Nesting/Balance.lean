import MarkupPath.Proofs.Nesting.Numbering

/-!
# Balanced tags

A list of tags is balanced if it leaves open what was open before it. Under the
elements that were met before, it starts new ones only where it begins: as
children of the innermost open element, and as many of each name as it counts.
-/

namespace MarkupPath.Occurrence

/-- The tags are balanced, with so many children of each name for the element around them. -/
structure Balanced (more : List Tag) (count : String → Nat) : Prop where
  opened_eq : ∀ tags, opened (tags ++ more) = opened tags
  started_eq : ∀ tags parent, (∀ element, parent = some element → element.place < tags.length) →
    ∀ name, started (tags ++ more) parent name =
      started tags parent name + if (opened tags).innermost? = parent then count name else 0

namespace Balanced

variable {more inner : List Tag} {count other : String → Nat} {tag opening closing : Tag}

theorem nil : Balanced [] fun _ => 0 := by
  refine ⟨fun tags => by rw [List.append_nil], ?_⟩
  intro tags parent met name
  simp

theorem append {moreStill : List Tag} (first : Balanced more count)
    (second : Balanced moreStill other) :
    Balanced (more ++ moreStill) fun name => count name + other name := by
  refine ⟨?_, ?_⟩
  · intro tags
    rw [← List.append_assoc, second.opened_eq, first.opened_eq]
  · intro tags parent met name
    have metLater : ∀ element, parent = some element →
        element.place < (tags ++ more).length := by
      intro element isParent
      have earlier := met element isParent
      rw [List.length_append]
      omega
    rw [← List.append_assoc, second.started_eq _ parent metLater, first.started_eq tags parent met,
      first.opened_eq]
    split <;> omega

theorem selfClosing (kind : tag.kind = .selfClosing) :
    Balanced [tag] fun name => if tag.name = name then 1 else 0 := by
  refine ⟨?_, ?_⟩
  · intro tags
    rw [opened_concat, openAfter, kind]
  · intro tags parent met name
    have start : tag.isStartTag = true := by simp [Tag.isStartTag, kind]
    rw [started_concat]
    by_cases innermost : (opened tags).innermost? = parent
    · simp [start, innermost]
    · simp [innermost]

/-- An element with balanced tags inside it is itself balanced. -/
theorem element (opens : opening.kind = .opening) (closes : closing.kind = .closing)
    (sameName : closing.name = opening.name) (inside : Balanced inner count) :
    Balanced (opening :: (inner ++ [closing])) fun name =>
      if opening.name = name then 1 else 0 := by
  have pushed : ∀ tags, opened (tags ++ [opening]) =
      (opened tags).push ⟨opening, tags.length⟩ := by
    intro tags
    simp [opened_concat, openAfter, opens]
  have whole : ∀ tags, tags ++ opening :: (inner ++ [closing]) =
      (tags ++ [opening] ++ inner) ++ [closing] := by
    intro tags
    simp
  refine ⟨?_, ?_⟩
  · intro tags
    rw [whole, opened_concat, inside.opened_eq, pushed, openAfter, closes]
    simp only
    rw [sameName, Ancestry.close_push]
    exact if_pos rfl
  · intro tags parent met name
    have start : opening.isStartTag = true := by simp [Tag.isStartTag, opens]
    have noStart : closing.isStartTag = false := by simp [Tag.isStartTag, closes]
    have metLater : ∀ element, parent = some element →
        element.place < (tags ++ [opening]).length := by
      intro element isParent
      have earlier := met element isParent
      rw [List.length_append]
      omega
    -- What starts inside has the new element as its parent, and this one was not met before.
    have outside : (opened (tags ++ [opening])).innermost? ≠ parent := by
      intro isParent
      rw [pushed] at isParent
      have earlier := met _ isParent.symm
      exact Nat.lt_irrefl _ earlier
    rw [whole, started_concat, inside.started_eq _ parent metLater, if_neg outside, started_concat]
    by_cases innermost : (opened tags).innermost? = parent
    · simp [start, noStart, innermost]
    · simp [noStart, innermost]

end Balanced

end MarkupPath.Occurrence
