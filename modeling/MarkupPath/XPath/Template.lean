import MarkupPath.Element.Segment

/-!
# Templates

A template is text with the placeholders `${tag}`, `${index}` and `${name}`,
which stand for the parts of a segment. All else in a template stands for
itself, an unknown or unfinished placeholder too. A `${` that meets another one
before its closing brace begins no placeholder either.
-/

namespace MarkupPath.XPath.Template

/-- Cuts the text at its first placeholder mark: the text before it and the text after it. -/
def cutAtMark : List Char → Option (List Char × List Char)
  | [] => none
  | [_] => none
  | first :: second :: rest =>
      if first = '$' && second = '{' then some ([], rest)
      else (cutAtMark (second :: rest)).map fun (before, after) => (first :: before, after)

def cutAtBrace : List Char → Option (List Char × List Char)
  | [] => none
  | first :: rest =>
      if first = '}' then some ([], rest)
      else (cutAtBrace rest).map fun (before, after) => (first :: before, after)

def mark : List Char := ['$', '{']

/-- The part of a segment that a placeholder names. -/
def partOf? (segment : Segment) (placeholder : List Char) : Option (List Char) :=
  if placeholder = "tag".toList then some segment.tag.toList
  else if placeholder = "index".toList then some segment.index.repr.toList
  else if placeholder = "name".toList then some (segment.name.getD "").toList
  else none

def substitute (segment : Segment) (placeholder : List Char) : List Char :=
  (partOf? segment placeholder).getD (mark ++ placeholder ++ ['}'])

theorem exists_of_cutAtMark_cons {first second : Char} {rest before after : List Char}
    (unmarked : ¬(first = '$' && second = '{') = true)
    (cut : cutAtMark (first :: second :: rest) = some (before, after)) :
    ∃ inner, before = first :: inner ∧ cutAtMark (second :: rest) = some (inner, after) := by
  rw [cutAtMark, if_neg unmarked, Option.map_eq_some_iff] at cut
  rcases cut with ⟨⟨inner, remaining⟩, found, parts⟩
  rcases parts with ⟨⟩
  exact ⟨inner, rfl, found⟩

theorem append_of_cutAtMark {text before after : List Char}
    (cut : cutAtMark text = some (before, after)) : text = before ++ mark ++ after := by
  induction text using cutAtMark.induct generalizing before after with
  | case1 => simp [cutAtMark] at cut
  | case2 => simp [cutAtMark] at cut
  | case3 first second rest marked =>
      simp only [cutAtMark, marked, if_true, Option.some.injEq, Prod.mk.injEq] at cut
      simp only [Bool.and_eq_true, decide_eq_true_eq] at marked
      simp [← cut.1, ← cut.2, marked, mark]
  | case4 first second rest unmarked ih =>
      rcases exists_of_cutAtMark_cons unmarked cut with ⟨inner, rfl, found⟩
      rw [ih found]
      rfl

theorem append_of_cutAtBrace {text before after : List Char}
    (cut : cutAtBrace text = some (before, after)) : text = before ++ '}' :: after := by
  induction text generalizing before after with
  | nil => simp [cutAtBrace] at cut
  | cons first rest ih =>
      unfold cutAtBrace at cut
      split at cut
      next brace =>
        simp only [Option.some.injEq, Prod.mk.injEq] at cut
        simp [← cut.1, ← cut.2, brace]
      next =>
        rcases Option.map_eq_some_iff.mp cut with ⟨⟨inner, remaining⟩, found, parts⟩
        simp only [Prod.mk.injEq] at parts
        rw [ih found, ← parts.1, ← parts.2]
        rfl

/-- The template with the parts of a segment in the place of its placeholders. -/
def expand (segment : Segment) (template : List Char) : List Char :=
  match _ : cutAtMark template with
  | none => template
  | some (before, after) =>
      match _ : cutAtBrace after with
      | none => template
      | some (inside, rest) =>
          match _ : cutAtMark inside with
          | some (literal, _) =>
              before ++ mark ++ literal ++ expand segment (after.drop literal.length)
          | none => before ++ substitute segment inside ++ expand segment rest
termination_by template.length
decreasing_by
  · rename_i cut _ _ _
    have whole := congrArg List.length (append_of_cutAtMark cut)
    simp only [mark, List.length_append, List.length_cons, List.length_drop] at whole ⊢
    omega
  · rename_i cut closed _
    have whole := congrArg List.length (append_of_cutAtMark cut)
    have inner := congrArg List.length (append_of_cutAtBrace closed)
    simp only [mark, List.length_append, List.length_cons] at whole inner
    omega

theorem expand_of_unmarked {segment : Segment} {template : List Char}
    (unmarked : cutAtMark template = none) : expand segment template = template := by
  rw [expand]
  split
  next => rfl
  next marked => exact nomatch unmarked.symm.trans marked

theorem expand_of_unclosed {segment : Segment} {template before after : List Char}
    (marked : cutAtMark template = some (before, after)) (unclosed : cutAtBrace after = none) :
    expand segment template = template := by
  rw [expand]
  split
  next => rfl
  next marked' =>
    simp only [marked, Option.some.injEq, Prod.mk.injEq] at marked'
    split
    next => rfl
    next closed => exact nomatch (marked'.2 ▸ unclosed).symm.trans closed

theorem expand_of_nested {segment : Segment}
    {template before after inside rest literal nested : List Char}
    (marked : cutAtMark template = some (before, after))
    (closed : cutAtBrace after = some (inside, rest))
    (remarked : cutAtMark inside = some (literal, nested)) :
    expand segment template =
      before ++ mark ++ literal ++ expand segment (after.drop literal.length) := by
  rw [expand]
  split
  next unmarked => exact nomatch marked.symm.trans unmarked
  next marked' =>
    simp only [marked, Option.some.injEq, Prod.mk.injEq] at marked'
    rcases marked' with ⟨rfl, rfl⟩
    split
    next unclosed => exact nomatch closed.symm.trans unclosed
    next closed' =>
      simp only [closed, Option.some.injEq, Prod.mk.injEq] at closed'
      rcases closed' with ⟨rfl, rfl⟩
      split
      next remarked' =>
        simp only [remarked, Option.some.injEq, Prod.mk.injEq] at remarked'
        rw [remarked'.1]
      next unmarked => exact nomatch remarked.symm.trans unmarked

theorem expand_of_placeholder {segment : Segment} {template before after inside rest : List Char}
    (marked : cutAtMark template = some (before, after))
    (closed : cutAtBrace after = some (inside, rest)) (unmarked : cutAtMark inside = none) :
    expand segment template = before ++ substitute segment inside ++ expand segment rest := by
  rw [expand]
  split
  next unmarked' => exact nomatch marked.symm.trans unmarked'
  next marked' =>
    simp only [marked, Option.some.injEq, Prod.mk.injEq] at marked'
    rcases marked' with ⟨rfl, rfl⟩
    split
    next unclosed => exact nomatch closed.symm.trans unclosed
    next closed' =>
      simp only [closed, Option.some.injEq, Prod.mk.injEq] at closed'
      rcases closed' with ⟨rfl, rfl⟩
      split
      next remarked => exact nomatch unmarked.symm.trans remarked
      next => rfl

end MarkupPath.XPath.Template
