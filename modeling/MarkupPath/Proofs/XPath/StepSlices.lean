import MarkupPath.Proofs.Markup.TagSlices
import MarkupPath.Proofs.XPath.Grammar

/-!
# Steps in slices of a path

The reader of paths cuts each step at its brackets, and what is in the brackets behind
the word `name`, behind the opening quote and behind the closing one. Brackets and
quotes are ASCII. The word is tested for in the first four bytes, which need not end
between two characters; then there is no such word, and nothing is cut. So no cut is
refused, and the steps are those that are read by characters.

`cuts_between_characters` says this of both readers, of tags and of paths.
-/

namespace MarkupPath

open Text

namespace Slice

theorem content_after?_eq {whole : List Char} (mark : Char) (slice : Slice whole) :
    (slice.after? mark).map content = XPath.after? mark slice.content := by
  rw [content_after?]
  cases slice.content <;> rfl

end Slice

namespace XPath

variable {whole : List Char}

/-- Cuts a step into its tag and what is in its brackets. -/
def cutBrackets (piece : Slice whole) : Except BadCut (Option (Slice whole × Slice whole)) :=
  match nextPlace? piece.bytes '[' 0 with
  | none => .ok none
  | some place => do
      let tag ← piece.cut 0 place
      if tag.content.isEmpty then .ok none
      else do
        let behind ← piece.cutFrom (place + 1)
        .ok ((behind.before? ']').map fun inside => (tag, inside))

/-- Cuts off the word `name`, if the first four bytes are those of the word. -/
def cutNameWord (word : Slice whole) : Except BadCut (Option (Slice whole)) :=
  match word.cut 0 4 with
  | .error _ => .ok none
  | .ok keyword =>
      if keyword.content.map Char.toLower = "name".toList then (word.cutFrom 4).map some
      else .ok none

/--
Reads up to the closing quote and cuts off what follows it. The characters are those from the place
on.
-/
def cutQuoted (literal : Slice whole) (quote : Char) (place : Nat) :
    List Char → Except BadCut (Option (List Char × Slice whole))
  | [] => .ok none
  | [last] =>
      if last = quote then (literal.cutFrom (place + last.utf8Size)).map fun tail => some ([], tail)
      else .ok none
  | first :: second :: rest =>
      if first = quote then
        if second = quote then
          (cutQuoted literal quote (place + first.utf8Size + second.utf8Size) rest).map
            (Option.map (Prod.map (quote :: ·) id))
        else (literal.cutFrom (place + first.utf8Size)).map fun tail => some ([], tail)
      else
        (cutQuoted literal quote (place + first.utf8Size) (second :: rest)).map
          (Option.map (Prod.map (first :: ·) id))

/-- Reads the text between quotes, if at most blanks follow. -/
def cutLiteral (literal : Slice whole) : Except BadCut (Option (List Char)) :=
  match literal.content.head?.filter Markup.isQuote with
  | none => .ok none
  | some quote => do
      let behind ← literal.cutFrom 1
      let quoted ← cutQuoted behind quote 0 behind.content
      .ok (quoted.bind fun (value, tail) => if tail.content.all isBlank then some value else none)

/-- Reads the name in `@name = 'value'`. It is not empty. -/
def cutName (inside : Slice whole) : Except BadCut (Option (List Char)) :=
  match (inside.dropWhile isBlank).after? '@' with
  | none => .ok none
  | some word => do
      let behindWord ← cutNameWord word
      match behindWord.bind fun equals => (equals.dropWhile isBlank).after? '=' with
      | none => .ok none
      | some literal => do
          let value ← cutLiteral (literal.dropWhile isBlank)
          .ok (value.filter (!·.isEmpty))

namespace Step

def cutPiece (piece : List Char) : Except BadCut Step := do
  match ← cutBrackets (Slice.all piece) with
  | none => .ok ⟨String.ofList piece, .first⟩
  | some (tag, inside) => do
      let name ← cutName inside
      .ok (match name, readIndex inside.content with
        | some value, _ => ⟨String.ofList tag.content, .name (String.ofList value)⟩
        | none, some number => ⟨String.ofList tag.content, .index number⟩
        | none, none => ⟨String.ofList piece, .first⟩)

def cutPath (path : String) : Except BadCut (List Step) :=
  (((trim path.toList).splitOn '/').filter (!·.isEmpty)).mapM cutPiece

end Step

theorem splitBrackets_of_split {front : List Char} (absent : '[' ∉ front) (back : List Char) :
    splitBrackets (front ++ '[' :: back) =
      if front = [] then none
      else if back.getLast? = some ']' then some (front, back.dropLast) else none := by
  have longest := longestRun_of_not_mem absent back
  rw [splitBrackets, longest.takeWhile_append, longest.dropWhile_append]
  cases front with
  | nil => rfl
  | cons first rest => rfl

theorem splitBrackets_of_not_mem {piece : List Char} (absent : '[' ∉ piece) :
    splitBrackets piece = none := by
  cases found : splitBrackets piece with
  | none => rfl
  | some parts =>
      have brackets := splitBrackets_eq_some_iff.mp found
      rw [brackets.split] at absent
      simp at absent

theorem exists_cutBrackets (piece : Slice whole) :
    ∃ parts, cutBrackets piece = .ok parts ∧
      parts.map (fun (tag, inside) => (tag.content, inside.content)) =
        splitBrackets piece.content := by
  have start : IsAhead piece.content 0 piece.content := isAhead_zero _
  by_cases bracketed : '[' ∈ piece.content
  · rcases List.eq_append_cons_of_mem bracketed with ⟨front, back, split, absent⟩
    have here : IsAhead piece.content 0 (front ++ '[' :: back) := split ▸ start
    have place := here.nextPlace?_of_mem (by decide) absent
    rcases piece.exists_cut_of_isAhead here with ⟨tag, cutTag, tagContent⟩
    rw [Nat.zero_add] at place cutTag
    rw [split, splitBrackets_of_split absent]
    by_cases bare : front = []
    · have isEmpty : tag.content.isEmpty = true := List.isEmpty_iff.mpr (tagContent.trans bare)
      refine ⟨none, ?_, (if_pos bare).symm⟩
      simp only [cutBrackets, Slice.bytes, place, cutTag, isEmpty, if_true, bind, Except.bind]
    · have opened : IsAhead piece.content (0 + byteLength front + 1) back :=
        here.advance.advance_ascii (by decide)
      rcases piece.exists_cutFrom_of_isAhead opened with ⟨behind, cutBehind, behindContent⟩
      rw [Nat.zero_add] at cutBehind
      refine ⟨(behind.before? ']').map fun inside => (tag, inside), ?_, ?_⟩
      · simp only [cutBrackets, Slice.bytes, place, cutTag, tagContent, List.isEmpty_iff, bare,
          if_false, cutBehind, bind, Except.bind]
      · rw [if_neg bare, ← behindContent]
        by_cases closed : behind.content.getLast? = some ']'
        · rcases behind.exists_before? closed with ⟨inside, found, content⟩
          rw [found, if_pos closed]
          simp [tagContent, content]
        · rw [behind.before?_eq_none closed, if_neg closed]
          rfl
  · refine ⟨none, ?_, (splitBrackets_of_not_mem bracketed).symm⟩
    rw [cutBrackets, Slice.bytes, start.nextPlace?_of_not_mem (by decide) bracketed]

theorem ascii_of_toLower {character : Char} (ascii : character.toLower.toNat < 128) :
    character.toNat < 128 := by
  unfold Char.toLower at ascii
  split at ascii
  next upper => exact Nat.lt_of_le_of_lt (UInt32.le_iff_toNat_le.mp upper.2) (by decide)
  next => exact ascii

/-- The letters of the word are ASCII in any cases. -/
theorem byteLength_of_isWord {word : List Char}
    (isWord : word.map Char.toLower = "name".toList) : byteLength word = 4 := by
  have lower : ∀ letter ∈ "name".toList, letter.toNat < 128 := by simp
  have ascii : ∀ character ∈ word, character.toNat < 128 := by
    intro character member
    apply ascii_of_toLower
    exact lower _ (isWord ▸ List.mem_map_of_mem member)
  have length := congrArg List.length isWord
  rw [List.length_map] at length
  rw [← length_encode, ← List.length_map, map_ofUInt8_encode ascii, length]
  rfl

theorem exists_cutNameWord (word : Slice whole) :
    ∃ behind, cutNameWord word = .ok behind ∧
      behind.map Slice.content = afterNameWord? word.content := by
  cases found : afterNameWord? word.content with
  | some rest =>
      rcases afterNameWord?_eq_some_iff.mp found with ⟨name, isWord, split⟩
      have width := byteLength_of_isWord isWord
      have here : IsAhead word.content 0 (name ++ rest) := split ▸ isAhead_zero _
      rcases word.exists_cut_of_isAhead here with ⟨keyword, cutKeyword, content⟩
      rcases Slice.exists_cutFrom split with ⟨behind, cutBehind, behindContent⟩
      rw [width] at cutKeyword cutBehind
      refine ⟨some behind, ?_, congrArg some behindContent⟩
      rw [cutNameWord, cutKeyword]
      simp only [content, isWord, if_true, cutBehind, Except.map]
  | none =>
      refine ⟨none, ?_, rfl⟩
      rw [cutNameWord]
      split
      next => rfl
      next keyword cutKeyword =>
        rw [if_neg]
        intro isWord
        rcases Slice.exists_of_cut cutKeyword with ⟨front, back, split, nothing, -⟩
        have short := length_le_byteLength front
        have isNil : front = [] := List.length_eq_zero_iff.mp (by omega)
        subst isNil
        have worded := afterNameWord?_eq_some_iff.mpr ⟨keyword.content, isWord, split⟩
        exact nomatch found.symm.trans worded

theorem exists_cutQuoted {literal : Slice whole} {place : Nat} {ahead : List Char}
    (quote : Char) (here : IsAhead literal.content place ahead) :
    ∃ quoted, cutQuoted literal quote place ahead = .ok quoted ∧
      quoted.map (Prod.map id Slice.content) = Quoted.read quote ahead := by
  fun_induction Quoted.read quote ahead generalizing place with
  | case1 => exact ⟨none, rfl, rfl⟩
  | case2 =>
      rcases literal.exists_cutFrom_of_isAhead here.advance_cons with ⟨tail, cutTail, content⟩
      refine ⟨some ([], tail), ?_, by simp [content]⟩
      rw [cutQuoted, if_pos rfl]
      exact congrArg (Except.map fun tail => some ([], tail)) cutTail
  | case3 last other => exact ⟨none, by rw [cutQuoted, if_neg other], rfl⟩
  | case4 rest ih =>
      rcases ih here.advance_cons.advance_cons with ⟨quoted, read, same⟩
      refine ⟨quoted.map (Prod.map (quote :: ·) id), ?_, ?_⟩
      · rw [cutQuoted, if_pos rfl, if_pos rfl]
        exact congrArg (Except.map (Option.map (Prod.map (quote :: ·) id))) read
      · rw [← same]
        cases quoted <;> rfl
  | case5 second rest other =>
      rcases literal.exists_cutFrom_of_isAhead here.advance_cons with ⟨tail, cutTail, content⟩
      refine ⟨some ([], tail), ?_, by simp [content]⟩
      rw [cutQuoted, if_pos rfl, if_neg other]
      exact congrArg (Except.map fun tail => some ([], tail)) cutTail
  | case6 first second rest other ih =>
      rcases ih here.advance_cons with ⟨quoted, read, same⟩
      refine ⟨quoted.map (Prod.map (first :: ·) id), ?_, ?_⟩
      · rw [cutQuoted, if_neg other]
        exact congrArg (Except.map (Option.map (Prod.map (first :: ·) id))) read
      · rw [← same]
        cases quoted <;> rfl

theorem cutLiteral_eq (literal : Slice whole) :
    cutLiteral literal = .ok (readLiteral literal.content) := by
  cases split : literal.content with
  | nil =>
      rw [cutLiteral, split]
      rfl
  | cons quote rest =>
      by_cases isQuote : Markup.isQuote quote = true
      · have start : IsAhead literal.content 0 (quote :: rest) := split ▸ isAhead_zero _
        have opened := start.advance_ascii (ascii_of_isQuote isQuote)
        rcases literal.exists_cutFrom_of_isAhead opened with ⟨behind, cutBehind, content⟩
        rcases exists_cutQuoted quote (isAhead_zero behind.content) with ⟨quoted, read, same⟩
        rw [content] at same
        have quoteFirst : literal.content.head?.filter Markup.isQuote = some quote := by
          rw [split, List.head?_cons, Option.filter_some, if_pos isQuote]
        rw [readLiteral, if_pos isQuote, ← same, cutLiteral, quoteFirst]
        simp only [cutBehind, read, bind, Except.bind]
        cases quoted <;> rfl
      · have noQuote : literal.content.head?.filter Markup.isQuote = none := by
          rw [split, List.head?_cons, Option.filter_some, if_neg isQuote]
        rw [readLiteral, if_neg isQuote, cutLiteral, noQuote]

theorem cutName_eq (inside : Slice whole) : cutName inside = .ok (readName inside.content) := by
  have marked : _ = after? '@' (trimStart inside.content) :=
    Slice.content_after?_eq '@' (inside.dropWhile isBlank)
  rw [readName, ← marked]
  cases found : (inside.dropWhile isBlank).after? '@' with
  | none =>
      rw [cutName, found]
      rfl
  | some word =>
      rcases exists_cutNameWord word with ⟨behindWord, cutWord, worded⟩
      rw [cutName, found]
      simp only [cutWord, bind, Except.bind, Option.map_some, Option.bind_some, ← worded]
      cases behindWord with
      | none => rfl
      | some equals =>
          have equated : _ = after? '=' (trimStart equals.content) :=
            Slice.content_after?_eq '=' (equals.dropWhile isBlank)
          simp only [Option.map_some, Option.bind_some, ← equated]
          cases (equals.dropWhile isBlank).after? '=' with
          | none => rfl
          | some literal =>
              have trimmed : (literal.dropWhile isBlank).content = trimStart literal.content := rfl
              simp only [cutLiteral_eq, trimmed, Option.map_some, Option.bind_some]
              cases readLiteral (trimStart literal.content) with
              | none => rfl
              | some value => cases value <;> rfl

namespace Step

theorem cutPiece_eq (piece : List Char) : cutPiece piece = .ok (ofPiece piece) := by
  rcases exists_cutBrackets (Slice.all piece) with ⟨parts, isCut, same⟩
  have whole : (Slice.all piece).content = piece := rfl
  rw [whole] at same
  rw [ofPiece, ← same]
  cases parts with
  | none => simp only [cutPiece, isCut, bind, Except.bind, Option.map_none]
  | some parts =>
      rcases parts with ⟨tag, inside⟩
      simp only [cutPiece, isCut, cutName_eq, bind, Except.bind, Option.map_some, ofBrackets?]
      cases readName inside.content with
      | some value => rfl
      | none => cases readIndex inside.content <;> rfl

theorem cutPath_eq (path : String) : cutPath path = .ok (readPath path) := by
  have each : cutPiece = fun piece => pure (ofPiece piece) := funext cutPiece_eq
  rw [cutPath, each, List.mapM_pure]
  rfl

end Step

end XPath

/--
A cut is refused if an end is in a character or out of bounds. Neither the reader of tags, wherever
in a text it begins, nor the reader of paths is refused one. Every piece of a tag is a part of the
text between two of its characters, and so is each name and each value among the attributes.
-/
theorem cuts_between_characters :
    (∀ (whole : List Char) (slice : Slice whole) (first stop : Nat),
      (∃ piece, slice.cut first stop = .ok piece) ↔
        first ≤ stop ∧ String.Pos.Raw.IsValid (String.ofList slice.content) ⟨first⟩ ∧
          String.Pos.Raw.IsValid (String.ofList slice.content) ⟨stop⟩) ∧
    (∀ (text : String) (start : Nat), ∃ tags, TagSlices.scanFrom text start = .ok tags ∧
      tags.map TagSlices.toTag = Tag.scanFrom text start ∧
      ∀ tag ∈ tags,
        (∀ piece ∈ tag.pieces, piece.first ≤ piece.stop ∧ piece.stop ≤ text.utf8ByteSize ∧
          String.Pos.Raw.IsValid text ⟨piece.first⟩ ∧ String.Pos.Raw.IsValid text ⟨piece.stop⟩ ∧
          ((bytes text).take piece.stop).drop piece.first = encode piece.content) ∧
        ∀ entry ∈ tag.toTag.attributes.entries, ∃ name value,
          (name, value) ∈ tag.pairs ∧ entry = (name.text, value.text)) ∧
    ∀ path, XPath.Step.cutPath path = .ok (XPath.Step.readPath path) := by
  refine ⟨fun _ _ _ _ => Slice.exists_cut_iff, ?_, XPath.Step.cutPath_eq⟩
  intro text start
  rcases TagSlices.exists_scanFrom text start with ⟨tags, scanned, same⟩
  refine ⟨tags, scanned, same, ?_⟩
  intro tag _
  constructor
  · intro piece _
    exact piece.ends_valid
  · intro entry member
    exact TagSlices.exists_pair_of_mem_attributes member

/-- The scan begins in a character, and the first four bytes behind the `@` end in one. -/
theorem cuts_between_characters_in_character :
    ¬String.Pos.Raw.IsValid "é<a b='ü'/>" ⟨1⟩ ∧
      (∃ tags, TagSlices.scanFrom "é<a b='ü'/>" 1 = .ok tags ∧
        tags.map TagSlices.toTag =
          [⟨.selfClosing, "a", NameTable.ofPairs [("b", "ü")], ⟨2, 0, 2⟩, "<a b='ü'/>"⟩]) ∧
      XPath.Step.cutPath "/a[@namü='b']" = .ok [⟨"a[@namü='b']", .first⟩] := by
  refine ⟨by decide, ?_, ?_⟩
  · rcases cuts_between_characters.2.1 "é<a b='ü'/>" 1 with ⟨tags, scanned, same, -⟩
    refine ⟨tags, scanned, ?_⟩
    rw [same]
    decide +kernel
  · rw [cuts_between_characters.2.2]
    decide +kernel

end MarkupPath
