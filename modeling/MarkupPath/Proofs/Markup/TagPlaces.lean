import MarkupPath.Proofs.Markup.Grammar
import MarkupPath.Proofs.Markup.PairSlices

/-!
# Places of tags

A search at a `<` goes over white space, perhaps a slash, and a name, and then looks
for the next `>`. It goes by bytes and finds places. `TagPlaces.exists_search` says
that these are the places of the lexeme that is read there by characters, and where no
tag is read none is found.
-/

namespace MarkupPath

open Markup Text

/-- Where the pieces of a tag are in the bytes. -/
structure TagPlaces where
  /-- There is a slash before the name. -/
  closing : Bool
  nameFirst : Nat
  nameStop : Nat
  /-- The place of the `>`. -/
  last : Nat

/-- The name of a tag goes on as far as it can. -/
theorem Lexeme.WellFormed.longestRun_name {lexeme : Lexeme} (wellFormed : lexeme.WellFormed)
    (after : List Char) : LongestRun isNameChar lexeme.name (lexeme.region ++ '>' :: after) := by
  refine ⟨wellFormed.isName.forall_isNameChar, ?_⟩
  intro mark isHead
  cases spelled : lexeme.region with
  | nil =>
      rw [spelled] at isHead
      rcases Option.some.inj isHead with rfl
      decide
  | cons first region =>
      rw [spelled] at isHead
      exact wellFormed.apart mark (spelled ▸ isHead)

namespace TagPlaces

/-- What a search at the place of a `<` comes to. -/
inductive Search
  /-- No name stands where the name of a tag would. -/
  | notATag
  /-- A name, and no `>` behind it. -/
  | endless
  | tag (places : TagPlaces)

/-- Whether there is a slash before the name, and the place behind it and the white space there. -/
def leadIn (bytes : List UInt8) (angle : Nat) : Bool × Nat :=
  let indented := skip bytes isSpace (angle + 1)
  if seen bytes (· == '/') indented then (true, skip bytes isSpace (indented + 1))
  else (false, indented)

def search (bytes : List UInt8) (angle : Nat) : Search :=
  let (closing, nameFirst) := leadIn bytes angle
  if seen bytes isNameStart nameFirst then
    match nextPlace? bytes '>' (skip bytes isNameChar nameFirst) with
    | some last => .tag ⟨closing, nameFirst, skip bytes isNameChar nameFirst, last⟩
    | none => .endless
  else .notATag

theorem lt_leadIn (bytes : List UInt8) (angle : Nat) : angle < (leadIn bytes angle).2 := by
  have indented := le_skip bytes isSpace (angle + 1)
  have slashed := le_skip bytes isSpace (skip bytes isSpace (angle + 1) + 1)
  simp only [leadIn]
  split <;> dsimp only <;> omega

theorem bounds_of_search {bytes : List UInt8} {angle : Nat} {places : TagPlaces}
    (found : search bytes angle = .tag places) :
    angle < places.last ∧ places.last < bytes.length := by
  have nameFirst_gt := lt_leadIn bytes angle
  simp only [search] at found
  split at found
  next =>
    split at found
    next last isLast =>
      have bounds := bounds_of_nextPlace? isLast
      have nameStop_ge := le_skip bytes isNameChar (leadIn bytes angle).2
      rcases Search.tag.inj found with rfl
      dsimp only
      omega
    next => exact nomatch found
  next => exact nomatch found

/-- The places are those of a tag that begins at the place of a `<`. -/
structure Around (places : TagPlaces) (text : List Char) (lexeme : Lexeme) (after : List Char) :
    Prop where
  closing_eq : places.closing = lexeme.slash.isSome
  name_ahead : IsAhead text places.nameFirst (lexeme.name ++ (lexeme.region ++ '>' :: after))
  nameStop_eq : places.nameStop = places.nameFirst + byteLength lexeme.name
  last_eq : places.last = places.nameStop + byteLength lexeme.region

section Search

variable {text body rest : List Char} {angle : Nat} {indent : List Char}
  {slash : Option (List Char)}

theorem exists_leadIn (leads : Lexeme.LeadsIn indent slash rest)
    (here : IsAhead text angle ('<' :: (Lexeme.beforeName indent slash ++ rest))) :
    ∃ nameFirst, leadIn (encode text) angle = (slash.isSome, nameFirst) ∧
      IsAhead text nameFirst rest := by
  have behind : IsAhead text (angle + 1) (Lexeme.beforeName indent slash ++ rest) :=
    here.advance_ascii (by decide)
  have solid : ∀ first, rest.head? = some first → isSpace first = false :=
    fun first isHead => (leads.solid first isHead).1
  cases slash with
  | none =>
      rw [Lexeme.beforeName] at behind
      have longest : LongestRun isSpace indent rest := ⟨leads.indent_space, solid⟩
      have indented := behind.skip_of_longestRun isCoarse_isSpace longest
      have noSlash : rest.head?.any (· == '/') = false := by
        cases isHead : rest.head? with
        | none => rfl
        | some first =>
            rw [Option.any_some, beq_eq_false_iff_ne]
            exact (leads.solid first isHead).2 rfl
      have unseen : seen (encode text) (· == '/') (angle + 1 + byteLength indent) = false :=
        (behind.advance.seen_eq (isCoarse_eq (by decide))).trans noSlash
      refine ⟨_, ?_, behind.advance⟩
      simp only [leadIn, indented, unseen]
      rfl
  | some spaces =>
      rw [Lexeme.beforeName, List.append_assoc, List.cons_append] at behind
      have longest : LongestRun isSpace indent ('/' :: (spaces ++ rest)) :=
        longestRun_cons_iff.mpr ⟨leads.indent_space, by decide⟩
      have longestBehind : LongestRun isSpace spaces rest := ⟨leads.slash_space spaces rfl, solid⟩
      have indented := behind.skip_of_longestRun isCoarse_isSpace longest
      have slashed := behind.advance
      have behindSlash : IsAhead text (angle + 1 + byteLength indent + 1) (spaces ++ rest) :=
        slashed.advance_ascii (by decide)
      have seenSlash : seen (encode text) (· == '/') (angle + 1 + byteLength indent) = true :=
        slashed.seen_eq (isCoarse_eq (by decide))
      refine ⟨_, ?_, behindSlash.advance⟩
      simp only [leadIn, indented, seenSlash,
        behindSlash.skip_of_longestRun isCoarse_isSpace longestBehind]
      rfl

theorem search_of_notATag (here : IsAhead text angle ('<' :: body))
    (none : Lexeme.read body = .notATag) : search (encode text) angle = .notATag := by
  rcases Lexeme.exists_leadsIn body with ⟨indent, slash, rest, rfl, leads⟩
  rcases exists_leadIn leads here with ⟨nameFirst, found, nameAhead⟩
  rw [Lexeme.read_beforeName leads] at none
  have noName : rest.head?.any isNameStart = false := by
    cases rest with
    | nil => rfl
    | cons first tail =>
        rw [Lexeme.readName] at none
        split at none
        next start =>
          dsimp only at none
          split at none <;> cases none
        next other => exact Bool.eq_false_iff.mpr other
  simp only [search, found, nameAhead.seen_eq isCoarse_isNameStart, noName]
  rfl

theorem search_of_endless (here : IsAhead text angle ('<' :: body))
    (endless : Lexeme.read body = .endless) : search (encode text) angle = .endless := by
  rcases Lexeme.exists_leadsIn body with ⟨indent, slash, rest, rfl, leads⟩
  rcases exists_leadIn leads here with ⟨nameFirst, found, nameAhead⟩
  have noEnd := Lexeme.end_not_mem_of_endless endless
  rw [Lexeme.read_beforeName leads] at endless
  cases rest with
  | nil => cases endless
  | cons first tail =>
      rw [Lexeme.readName] at endless
      split at endless
      next start =>
        rcases seen_name start nameAhead with ⟨named, stop, nameHere⟩
        have noEndBehind : '>' ∉ tail.dropWhile isNameChar := by
          intro member
          apply noEnd (List.mem_append_right _ (List.mem_cons_of_mem first _))
          exact (List.dropWhile_suffix isNameChar).subset member
        have none := nameHere.advance.nextPlace?_of_not_mem (by decide) noEndBehind
        simp only [search, found, named, stop, none, if_true]
      next => cases endless

theorem exists_search {after : List Char} {lexeme : Lexeme}
    (here : IsAhead text angle ('<' :: body)) (reading : Lexeme.read body = .tag lexeme after) :
    ∃ places, search (encode text) angle = .tag places ∧ places.Around text lexeme after := by
  rcases Lexeme.read_eq_tag_iff.mp reading with ⟨wellFormed, split⟩
  have leads := wellFormed.leadsIn (lexeme.region ++ '>' :: after)
  rw [split, Lexeme.toList_eq] at here
  simp only [List.cons_append, List.append_assoc, List.nil_append] at here
  rcases exists_leadIn leads here with ⟨nameFirst, found, nameAhead⟩
  have named : seen (encode text) isNameStart nameFirst = true := by
    have isName := wellFormed.isName
    rw [nameAhead.seen_eq isCoarse_isNameStart]
    cases spelled : lexeme.name with
    | nil => exact absurd spelled isName.ne_nil
    | cons first tail =>
        rw [spelled] at isName
        exact isName.1
  have stop := nameAhead.skip_of_longestRun isCoarse_isNameChar
    (wellFormed.longestRun_name after)
  have last := nameAhead.advance.nextPlace?_of_mem (by decide) wellFormed.noEnd
  rw [← stop] at last
  refine ⟨⟨lexeme.slash.isSome, nameFirst, skip (encode text) isNameChar nameFirst,
    skip (encode text) isNameChar nameFirst + byteLength lexeme.region⟩, ?_, rfl, nameAhead, stop,
    rfl⟩
  simp only [search, found, named, last, if_true]

end Search

section Around

variable {places : TagPlaces} {text body after : List Char} {lexeme : Lexeme} {angle : Nat}

theorem Around.region_ahead (around : places.Around text lexeme after) :
    IsAhead text places.nameStop (lexeme.region ++ '>' :: after) := by
  rw [around.nameStop_eq]
  exact around.name_ahead.advance

/-- The place behind the `>` is the one behind the whole tag. -/
theorem Around.last_succ (around : places.Around text lexeme after)
    (here : IsAhead text angle (lexeme.toList ++ after)) :
    places.last + 1 = angle + byteLength lexeme.toList := by
  have whole := here.length_encode
  have behind := around.name_ahead.length_encode
  have mark : '>'.utf8Size = 1 := by decide
  have nameStop := around.nameStop_eq
  have last := around.last_eq
  simp only [byteLength_append, byteLength, mark] at whole behind
  omega

end Around

end TagPlaces

end MarkupPath
