import MarkupPath.Proofs.Text.Run
import MarkupPath.XPath.Render

/-!
# Templates as pieces

A template is a list of pieces: placeholders, and characters that stand for
themselves. `Template.pieces` finds them by walking through the template from
left to right. Where a placeholder begins, it is taken as a whole, and otherwise
one character is. The pieces do not depend on the segment that is shown, so
nothing in the parts of a segment is ever taken for a placeholder.

`Template.expand` goes another way. It looks for the next `${`, for the next
brace behind it and for another `${` between the two, and copies whole stretches
of the template. It gives the text of the pieces all the same.
-/

namespace MarkupPath.XPath

namespace Template

/-- What a placeholder can ask for. -/
inductive Part
  | tag
  | index
  | name
deriving DecidableEq, Repr

namespace Part

/-- What stands between the braces of the placeholder. -/
def word : Part → List Char
  | .tag => "tag".toList
  | .index => "index".toList
  | .name => "name".toList

def placeholder (part : Part) : List Char :=
  mark ++ (part.word ++ ['}'])

/-- What a segment has in the place of the placeholder. -/
def ofSegment (segment : Segment) : Part → List Char
  | .tag => segment.tag.toList
  | .index => segment.index.repr.toList
  | .name => (segment.name.getD "").toList

end Part

/-- One step on the way through a template. -/
inductive Piece
  | placeholder (part : Part)
  | plain (character : Char)
deriving DecidableEq, Repr

namespace Piece

/-- The text of the piece in the template. -/
def spelling : Piece → List Char
  | placeholder part => part.placeholder
  | plain character => [character]

/-- The text that the piece becomes. -/
def shown (segment : Segment) : Piece → List Char
  | placeholder part => part.ofSegment segment
  | plain character => [character]

end Piece

/-- The pieces of a template: a placeholder wherever one begins, and otherwise one character. -/
def pieces : List Char → List Piece
  | '$' :: '{' :: 't' :: 'a' :: 'g' :: '}' :: rest => .placeholder .tag :: pieces rest
  | '$' :: '{' :: 'i' :: 'n' :: 'd' :: 'e' :: 'x' :: '}' :: rest =>
      .placeholder .index :: pieces rest
  | '$' :: '{' :: 'n' :: 'a' :: 'm' :: 'e' :: '}' :: rest => .placeholder .name :: pieces rest
  | first :: rest => .plain first :: pieces rest
  | [] => []

theorem pieces_placeholder (part : Part) (rest : List Char) :
    pieces (part.placeholder ++ rest) = .placeholder part :: pieces rest := by
  cases part <;> rfl

theorem pieces_plain {first : Char} {rest : List Char}
    (plain : ∀ part : Part, ¬part.placeholder <+: first :: rest) :
    pieces (first :: rest) = .plain first :: pieces rest := by
  rw [pieces]
  · rintro rest rfl rfl
    exact plain .tag ⟨rest, rfl⟩
  · rintro rest rfl rfl
    exact plain .index ⟨rest, rfl⟩
  · rintro rest rfl rfl
    exact plain .name ⟨rest, rfl⟩

/-- The pieces are the whole template, in its order. -/
theorem flatMap_spelling_pieces (template : List Char) :
    (pieces template).flatMap Piece.spelling = template := by
  induction template using pieces.induct with
  | case1 rest ih | case2 rest ih | case3 rest ih =>
      rw [pieces, List.flatMap_cons, ih]
      rfl
  | case4 first rest noTag noIndex noName ih =>
      rw [pieces, List.flatMap_cons, ih]
      · rfl
      · exact noTag
      · exact noIndex
      · exact noName
  | case5 => rfl

theorem flatMap_shown_plain (segment : Segment) (text : List Char) (more : List Piece) :
    (text.map Piece.plain ++ more).flatMap (Piece.shown segment) =
      text ++ more.flatMap (Piece.shown segment) := by
  rw [List.flatMap_append, List.flatMap_map]
  exact congrArg (· ++ _) (List.flatMap_singleton' text)

section Marks

variable {text before after inside rest : List Char}

theorem pieces_of_no_mark {first : Char} (unmarked : ¬mark <+: first :: rest) :
    pieces (first :: rest) = .plain first :: pieces rest := by
  apply pieces_plain
  intro part begins
  exact unmarked ((List.prefix_append mark _).trans begins)

theorem not_mark_isPrefix {first second : Char} (unmarked : ¬(first = '$' && second = '{') = true) :
    ¬mark <+: first :: second :: rest := by
  rintro ⟨more, begins⟩
  rcases List.cons.inj begins with ⟨rfl, afterDollar⟩
  rcases List.cons.inj afterDollar with ⟨rfl, -⟩
  exact unmarked rfl

/-- Before the first mark, every character stands for itself. -/
theorem pieces_of_cutAtMark (cut : cutAtMark text = some (before, after)) :
    pieces text = before.map .plain ++ pieces (mark ++ after) := by
  induction text using cutAtMark.induct generalizing before after with
  | case1 => simp [cutAtMark] at cut
  | case2 => simp [cutAtMark] at cut
  | case3 first second rest marked =>
      rw [append_of_cutAtMark cut]
      rw [cutAtMark, if_pos marked] at cut
      rcases cut with ⟨⟩
      rfl
  | case4 first second rest unmarked ih =>
      rcases exists_of_cutAtMark_cons unmarked cut with ⟨inner, rfl, found⟩
      rw [pieces_of_no_mark (not_mark_isPrefix unmarked), ih found]
      rfl

/-- Text without a mark stands for itself, if it does not make one with what follows. -/
theorem pieces_append_of_unmarked (unmarked : cutAtMark text = none)
    (apart : rest.head? ≠ some '{') : pieces (text ++ rest) = text.map .plain ++ pieces rest := by
  induction text using cutAtMark.induct with
  | case1 => rfl
  | case2 last =>
      have noMark : ¬mark <+: last :: rest := by
        rintro ⟨more, begins⟩
        apply apart
        rw [← (List.cons.inj begins).2]
        rfl
      exact pieces_of_no_mark noMark
  | case3 first second rest marked =>
      simp [cutAtMark, marked] at unmarked
  | case4 first second more other ih =>
      rw [cutAtMark, if_neg other, Option.map_eq_none_iff] at unmarked
      have further := ih unmarked
      rw [List.cons_append, List.cons_append, pieces_of_no_mark (not_mark_isPrefix other),
        ← List.cons_append, further]
      rfl

theorem cutAtMark_append (cut : cutAtMark text = some (before, after)) (more : List Char) :
    cutAtMark (text ++ more) = some (before, after ++ more) := by
  induction text using cutAtMark.induct generalizing before after with
  | case1 => simp [cutAtMark] at cut
  | case2 => simp [cutAtMark] at cut
  | case3 first second rest marked =>
      rw [cutAtMark, if_pos marked] at cut
      rcases cut with ⟨⟩
      rw [List.cons_append, List.cons_append, cutAtMark, if_pos marked]
  | case4 first second rest unmarked ih =>
      rcases exists_of_cutAtMark_cons unmarked cut with ⟨inner, rfl, found⟩
      have further := ih found
      rw [List.cons_append] at further
      rw [List.cons_append, List.cons_append, cutAtMark, if_neg unmarked, further]
      rfl

theorem brace_not_mem_of_unclosed (unclosed : cutAtBrace text = none) : '}' ∉ text := by
  induction text with
  | nil => exact List.not_mem_nil
  | cons first text ih =>
      unfold cutAtBrace at unclosed
      split at unclosed
      next => simp at unclosed
      next other =>
        rw [Option.map_eq_none_iff] at unclosed
        simp [ih unclosed, Ne.symm other]

theorem brace_not_mem_of_cutAtBrace (closed : cutAtBrace text = some (inside, rest)) :
    '}' ∉ inside := by
  induction text generalizing inside rest with
  | nil => simp [cutAtBrace] at closed
  | cons first text ih =>
      unfold cutAtBrace at closed
      split at closed
      next =>
        simp only [Option.some.injEq, Prod.mk.injEq] at closed
        simp [← closed.1]
      next other =>
        rcases Option.map_eq_some_iff.mp closed with ⟨⟨inner, remaining⟩, found, parts⟩
        simp only [Prod.mk.injEq] at parts
        rw [← parts.1]
        simp [ih found, Ne.symm other]

/-- Every placeholder is closed. -/
theorem pieces_of_brace_not_mem (unclosed : '}' ∉ text) : pieces text = text.map .plain := by
  induction text with
  | nil => rfl
  | cons first text ih =>
      rw [List.mem_cons, not_or] at unclosed
      have plain : ∀ part : Part, ¬part.placeholder <+: first :: text := by
        intro part begins
        have closing : '}' ∈ part.placeholder := by simp [Part.placeholder]
        rcases List.mem_cons.mp (begins.mem closing) with here | later
        · exact unclosed.1 here
        · exact unclosed.2 later
      rw [pieces_plain plain, ih unclosed.2]
      rfl

/-- A mark begins no placeholder if what is between it and the next brace is no word for a part. -/
theorem pieces_mark_append (whole : '}' ∉ inside) (unknown : ∀ part : Part, inside ≠ part.word) :
    pieces (mark ++ (inside ++ '}' :: rest)) =
      mark.map .plain ++ pieces (inside ++ '}' :: rest) := by
  have plain : ∀ part : Part, ¬part.placeholder <+: mark ++ (inside ++ '}' :: rest) := by
    rintro part ⟨more, begins⟩
    have closing : '}' ∉ part.word := by cases part <;> decide
    rw [Part.placeholder, List.append_assoc, List.append_assoc, List.singleton_append] at begins
    exact unknown part
      (front_eq_of_not_mem closing whole (List.append_cancel_left begins)).symm
  have brace : ¬mark <+: '{' :: (inside ++ '}' :: rest) := by simp [mark]
  have first : pieces (mark ++ (inside ++ '}' :: rest)) =
      .plain '$' :: pieces ('{' :: (inside ++ '}' :: rest)) := pieces_plain plain
  rw [first, pieces_of_no_mark brace]
  rfl

end Marks

theorem substitute_word (segment : Segment) (part : Part) :
    substitute segment part.word = part.ofSegment segment := by
  cases part <;> rfl

theorem substitute_of_unknown (segment : Segment) {inside : List Char}
    (unknown : ∀ part : Part, inside ≠ part.word) :
    substitute segment inside = mark ++ inside ++ ['}'] := by
  have notTag : inside ≠ "tag".toList := unknown .tag
  have notIndex : inside ≠ "index".toList := unknown .index
  have notName : inside ≠ "name".toList := unknown .name
  rw [substitute, partOf?, if_neg notTag, if_neg notIndex, if_neg notName]
  rfl

/-- A placeholder, or what is like one but for the word in it. -/
theorem flatMap_shown_of_closed (segment : Segment) {inside rest : List Char}
    (whole : '}' ∉ inside) (unmarked : cutAtMark inside = none) :
    (pieces (mark ++ (inside ++ '}' :: rest))).flatMap (Piece.shown segment) =
      substitute segment inside ++ (pieces rest).flatMap (Piece.shown segment) := by
  by_cases known : ∃ part : Part, inside = part.word
  · rcases known with ⟨part, rfl⟩
    have spelled : mark ++ (part.word ++ '}' :: rest) = part.placeholder ++ rest := by
      simp [Part.placeholder]
    rw [spelled, pieces_placeholder, substitute_word]
    rfl
  · have unknown : ∀ part : Part, inside ≠ part.word := fun part same => known ⟨part, same⟩
    have apart : ('}' :: rest).head? ≠ some '{' := by simp
    have noMark : ¬mark <+: '}' :: rest := by simp [mark]
    rw [pieces_mark_append whole unknown, pieces_append_of_unmarked unmarked apart,
      pieces_of_no_mark noMark, substitute_of_unknown segment unknown, flatMap_shown_plain,
      flatMap_shown_plain]
    simp [Piece.shown]

/-- A mark that meets another one before its brace is plain. -/
theorem flatMap_shown_of_nested (segment : Segment) {inside rest literal nested : List Char}
    (whole : '}' ∉ inside) (remarked : cutAtMark inside = some (literal, nested)) :
    (pieces (mark ++ (inside ++ '}' :: rest))).flatMap (Piece.shown segment) =
      mark ++ literal ++
        (pieces (mark ++ (nested ++ '}' :: rest))).flatMap (Piece.shown segment) := by
  have unknown : ∀ part : Part, inside ≠ part.word := by
    intro part same
    have dollar : '$' ∈ part.word := by
      rw [← same, append_of_cutAtMark remarked]
      simp [mark]
    revert dollar
    cases part <;> decide
  rw [pieces_mark_append whole unknown, pieces_of_cutAtMark (cutAtMark_append remarked _),
    flatMap_shown_plain, flatMap_shown_plain, List.append_assoc]

/-- Expanding a template gives the text of its pieces. -/
theorem expand_eq_flatMap_pieces (segment : Segment) (template : List Char) :
    expand segment template = (pieces template).flatMap (Piece.shown segment) := by
  induction template using expand.induct with
  | case1 template unmarked =>
      have apart : ([] : List Char).head? ≠ some '{' := by simp
      have plain := pieces_append_of_unmarked unmarked apart
      rw [List.append_nil] at plain
      rw [expand_of_unmarked unmarked, plain, flatMap_shown_plain]
      exact (List.append_nil template).symm
  | case2 template before after marked unclosed =>
      have noBrace : '}' ∉ mark ++ after := by
        simp [mark, brace_not_mem_of_unclosed unclosed]
      have plain := flatMap_shown_plain segment (mark ++ after) []
      rw [List.append_nil, List.flatMap_nil, List.append_nil] at plain
      rw [expand_of_unclosed marked unclosed, pieces_of_cutAtMark marked, flatMap_shown_plain,
        pieces_of_brace_not_mem noBrace, plain, ← List.append_assoc]
      exact append_of_cutAtMark marked
  | case3 template before after marked inside rest closed literal nested remarked ih =>
      have split := append_of_cutAtBrace closed
      have later : after.drop literal.length = mark ++ (nested ++ '}' :: rest) := by
        rw [split, append_of_cutAtMark remarked]
        simp
      rw [expand_of_nested marked closed remarked, ih, later, pieces_of_cutAtMark marked, split,
        flatMap_shown_plain,
        flatMap_shown_of_nested segment (brace_not_mem_of_cutAtBrace closed) remarked]
      simp
  | case4 template before after marked inside rest closed unmarked ih =>
      rw [expand_of_placeholder marked closed unmarked, ih, pieces_of_cutAtMark marked,
        append_of_cutAtBrace closed, flatMap_shown_plain,
        flatMap_shown_of_closed segment (brace_not_mem_of_cutAtBrace closed) unmarked,
        List.append_assoc]

end Template

open Template (Piece pieces)

/--
In the custom format, a template is cut into its pieces once, and every segment is shown as these
pieces with its own parts in the place of the placeholders. Between them, the pieces are all of the
template.
-/
theorem render_custom_eq (template : String) (nameOnly : Bool) (segments : List Segment) :
    Format.custom.render? ⟨some template, nameOnly⟩ segments =
        some (String.join (segments.map fun segment =>
          String.ofList ((pieces template.toList).flatMap (Piece.shown segment)))) ∧
      (pieces template.toList).flatMap Piece.spelling = template.toList := by
  refine ⟨?_, Template.flatMap_spelling_pieces _⟩
  have each : templateStep template = fun segment =>
      String.ofList ((pieces template.toList).flatMap (Piece.shown segment)) := by
    funext segment
    rw [templateStep, Template.expand_eq_flatMap_pieces]
  rw [Format.render?, Option.map_some, each]

/-- A mark that meets another one is plain, and so is a placeholder of an unknown word. -/
example : ((pieces "${${tag}}${title}$".toList).filterMap fun
    | .placeholder part => some part
    | .plain _ => none) = [.tag] := by
  decide

end MarkupPath.XPath
