import MarkupPath.Proofs.XPath.Notation

/-!
# Reading written paths

A path that is written step by step is read back as these steps, unless a name in
it holds a slash: the text of a path is cut at every slash, also at one between
quotes. So no name that is read holds a slash.
-/

namespace MarkupPath.XPath

open Text

namespace Step

/-- The text of a path with these steps. -/
def writePath (steps : List Step) : String :=
  String.join (steps.map fun step => "/" ++ String.ofList step.write)

theorem toList_writePath (steps : List Step) :
    (writePath steps).toList = (steps.map write).flatMap ('/' :: ·) := by
  rw [writePath, String.toList_join, List.flatMap_map, List.flatMap_map]
  congr 1
  funext step
  simp

theorem exists_write_concat {step : Step} (isName : Markup.IsName step.tag.toList) :
    ∃ front last, step.write = front ++ [last] ∧ isBlank last = false := by
  unfold write
  split
  · rcases List.eq_nil_or_concat step.tag.toList with empty | ⟨front, last, split⟩
    · exact absurd empty isName.ne_nil
    · rw [List.concat_eq_append] at split
      refine ⟨front, last, split, ?_⟩
      apply Markup.isBlank_eq_false_of_isNameChar
      apply isName.forall_isNameChar
      rw [split]
      simp
  · next inside _ =>
    exact ⟨step.tag.toList ++ '[' :: inside, ']', by simp, by decide⟩

theorem trim_writePath {steps : List Step} (names : ∀ step ∈ steps, Markup.IsName step.tag.toList) :
    trim (writePath steps).toList = (writePath steps).toList := by
  rw [toList_writePath]
  apply trim_eq_self
  · intro character isHead
    cases steps with
    | nil => exact nomatch isHead
    | cons step steps =>
        simp only [List.map_cons, List.flatMap_cons, List.cons_append, List.head?_cons,
          Option.some.injEq] at isHead
        rw [← isHead]
        decide
  · intro character isLast
    rcases List.eq_nil_or_concat steps with rfl | ⟨front, step, rfl⟩
    · exact nomatch isLast
    · rcases exists_write_concat (names step (by simp)) with ⟨start, last, split, solid⟩
      simp only [List.concat_eq_append, List.map_append, List.map_cons, List.map_nil,
        List.flatMap_append, List.flatMap_cons, List.flatMap_nil, List.append_nil, split,
        ← List.cons_append, ← List.append_assoc, List.getLast?_concat, Option.some.injEq] at isLast
      rwa [← isLast]

theorem splitOn_pieces (piece : List Char) (pieces : List (List Char))
    (whole : '/' ∉ piece) (wholes : ∀ other ∈ pieces, '/' ∉ other) :
    (piece ++ pieces.flatMap ('/' :: ·)).splitOn '/' = piece :: pieces := by
  induction pieces generalizing piece with
  | nil => simpa using List.splitOn_eq_singleton whole
  | cons next pieces ih =>
      rw [List.flatMap_cons, List.cons_append, List.splitOn_append_cons_self_of_not_mem whole,
        ih next (wholes next List.mem_cons_self)
          (fun other member => wholes other (List.mem_cons_of_mem _ member))]

theorem slash_not_mem_write {step : Step} (isName : Markup.IsName step.tag.toList)
    (whole : ∀ value, step.choice = .name value → '/' ∉ value.toList) : '/' ∉ step.write := by
  have inTag : '/' ∉ step.tag.toList := isName.not_mem (by decide)
  rcases step with ⟨tag, choice⟩
  cases choice with
  | first => exact inTag
  | index number =>
      have digits : '/' ∉ Nat.toDigits 10 number := by
        intro member
        have digit := Nat.isDigit_of_mem_toDigits (by decide) (by decide) member
        exact absurd digit (by decide)
      simp [write, inside?, inTag, digits]
  | name value =>
      have doubled : '/' ∉ Quoted.double '\'' value.toList := by
        intro member
        exact whole value rfl (Quoted.mem_of_mem_double (by decide) member)
      simp [write, inside?, inTag, doubled]

/-- Steps are read back from their notation if no name in them holds a slash. -/
theorem readPath_writePath {steps : List Step} (readable : ∀ step ∈ steps, step.IsReadable)
    (whole : ∀ step ∈ steps, ∀ value, step.choice = .name value → '/' ∉ value.toList) :
    readPath (writePath steps) = steps := by
  have names : ∀ step ∈ steps, Markup.IsName step.tag.toList :=
    fun step member => (readable step member).isName_tag
  have pieces := splitOn_pieces [] (steps.map write) (by simp) (by
    intro piece pieceMem
    rcases List.mem_map.mp pieceMem with ⟨step, member, rfl⟩
    exact slash_not_mem_write (names step member) (whole step member))
  have filled : (steps.map write).filter (!·.isEmpty) = steps.map write := by
    rw [List.filter_eq_self]
    intro piece pieceMem
    rcases List.mem_map.mp pieceMem with ⟨step, member, rfl⟩
    rcases exists_write_concat (names step member) with ⟨front, last, split, -⟩
    simp [split]
  have each : ∀ step ∈ steps, (ofPiece ∘ write) step = id step :=
    fun step member => ofPiece_write (readable step member)
  rw [readPath, trim_writePath names, toList_writePath]
  rw [List.nil_append] at pieces
  rw [pieces]
  simp only [List.filter_cons, List.isEmpty_nil, Bool.not_true, Bool.false_eq_true, if_false]
  rw [filled, List.map_map, List.map_congr_left each, List.map_id]

theorem not_mem_of_mem_splitOn {mark : Char} {text piece : List Char}
    (member : piece ∈ text.splitOn mark) : mark ∉ piece := by
  induction text generalizing piece with
  | nil =>
      simp only [List.splitOn_nil, List.mem_singleton] at member
      simp [member]
  | cons first rest ih =>
      rw [List.splitOn_cons_eq_if_modifyHead] at member
      split at member
      · rcases List.mem_cons.mp member with rfl | later
        · exact List.not_mem_nil
        · exact ih later
      · next other =>
        rcases List.exists_cons_of_ne_nil (List.splitOn_ne_nil mark rest) with ⟨head, tail, split⟩
        rw [split, List.modifyHead_cons] at member
        have whole : mark ∉ head := ih (split ▸ List.mem_cons_self)
        rcases List.mem_cons.mp member with rfl | later
        · intro inside
          rcases List.mem_cons.mp inside with rfl | inside
          · exact other (beq_self_eq_true _)
          · exact whole inside
        · exact ih (split ▸ List.mem_cons_of_mem _ later)

/-- The name of a step is spelled in the piece from which the step is read. -/
theorem mem_of_mem_name {piece : List Char} {value : String}
    (named : (ofPiece piece).choice = .name value) {character : Char}
    (member : character ∈ value.toList) : character ∈ piece := by
  have read : ofPiece piece = ⟨(ofPiece piece).tag, .name value⟩ := by rw [← named]
  rcases ofPiece_eq_name_iff.mp read with
    ⟨-, inside, brackets, before, word, between, behind, quote, after, rfl, -⟩
  have doubled := Quoted.mem_double_of_mem quote member
  rw [brackets.split]
  simp [doubled]

theorem slash_not_mem_of_readPath {path value : String} {step : Step}
    (member : step ∈ readPath path) (named : step.choice = .name value) : '/' ∉ value.toList := by
  rcases List.mem_map.mp member with ⟨piece, pieceMem, rfl⟩
  intro slash
  exact not_mem_of_mem_splitOn (List.mem_filter.mp pieceMem).1 (mem_of_mem_name named slash)

end Step

end MarkupPath.XPath
