import MarkupPath.Proofs.Markup.Trimming
import MarkupPath.Proofs.Text.Places

/-!
# Pairs in slices of a text

The reader of attributes goes through the bytes of a slice and cuts names and values
out of it. Each cut is at an end of the slice or next to a byte that is ASCII: at a
quote, or where a run of bytes of some class begins or ends. So no cut is refused, and
the pairs are those that are read by characters.
-/

namespace MarkupPath

open Text

namespace Markup

/-- Where a value is, and where to go on behind it. -/
structure ValuePlaces where
  first : Nat
  stop : Nat
  next : Nat

def barePlaces (bytes : List UInt8) (place : Nat) : ValuePlaces where
  first := place
  stop := skip bytes isBareChar place
  next := skip bytes isBareChar place

/-- The value up to the next quote, if there is one. The bytes behind the first quote are cut off for
the search. -/
def quotedPlaces? (bytes : List UInt8) (quote : Char) (place : Nat) :
    Except BadCut (Option ValuePlaces) := do
  let behind ← cutBytes bytes (place + 1) bytes.length
  .ok ((nextPlace? behind quote 0).map fun length =>
    ⟨place + 1, place + 1 + length, place + 1 + length + 1⟩)

def valuePlaces (bytes : List UInt8) (place : Nat) : Except BadCut ValuePlaces :=
  match bytes[place]?.filter (byteClass isQuote) with
  | none => .ok (barePlaces bytes place)
  | some quote =>
      (quotedPlaces? bytes (Char.ofUInt8 quote) place).map (·.getD (barePlaces bytes place))

/-- The place of the value, where an equals sign and perhaps white space around it stand first. -/
def valueStart? (bytes : List UInt8) (place : Nat) : Option Nat :=
  if seen bytes (· == '=') (skip bytes isSpace place) then
    some (skip bytes isSpace (skip bytes isSpace place + 1))
  else none

theorem le_next_of_valuePlaces {bytes : List UInt8} {place : Nat} {places : ValuePlaces}
    (found : valuePlaces bytes place = .ok places) : place ≤ places.next := by
  have bare : place ≤ (barePlaces bytes place).next := le_skip bytes isBareChar place
  unfold valuePlaces quotedPlaces? at found
  split at found
  next => exact Except.ok.inj found ▸ bare
  next quote _ =>
    cases cut : cutBytes bytes (place + 1) bytes.length with
    | error bad => simp [cut, bind, Except.bind, Except.map] at found
    | ok behind =>
        simp only [cut, bind, Except.bind, Except.map, Except.ok.injEq] at found
        cases next : nextPlace? behind (Char.ofUInt8 quote) 0 with
        | none =>
            rw [next] at found
            exact found ▸ bare
        | some length =>
            rw [next] at found
            subst found
            simp only [Option.map_some, Option.getD_some]
            omega

theorem lt_of_valueStart? {bytes : List UInt8} {place start : Nat}
    (found : valueStart? bytes place = some start) : place < start := by
  unfold valueStart? at found
  split at found
  next =>
    rcases Option.some.inj found with rfl
    have before := le_skip bytes isSpace place
    have behind := le_skip bytes isSpace (skip bytes isSpace place + 1)
    omega
  next => exact nomatch found

section Reading

variable {text ahead : List Char} {place : Nat}

theorem lt_skip_of_isNameStart {bytes : List UInt8} (named : seen bytes isNameStart place = true) :
    place < skip bytes isNameChar place := by
  apply lt_skip
  rcases (Option.any_eq_true _ _).mp named with ⟨byte, found, start⟩
  exact (Option.any_eq_true _ _).mpr ⟨byte, found, isNameChar_of_isNameStart start⟩

/-- A name is seen where it begins, and skipped up to where it ends. -/
theorem seen_name {first : Char} {rest : List Char} (start : isNameStart first = true)
    (here : IsAhead text place (first :: rest)) :
    seen (encode text) isNameStart place = true ∧
      skip (encode text) isNameChar place =
        place + byteLength (first :: rest.takeWhile isNameChar) ∧
      IsAhead text place
        ((first :: rest.takeWhile isNameChar) ++ rest.dropWhile isNameChar) := by
  refine ⟨(here.seen_eq isCoarse_isNameStart).trans start, ?_, ?_⟩
  · rw [here.skip_eq isCoarse_isNameChar,
      List.takeWhile_cons_of_pos (isNameChar_of_isNameStart start)]
  · rwa [List.cons_append, List.takeWhile_append_dropWhile]

theorem exists_valueStart? {valueText : List Char} (here : IsAhead text place ahead)
    (found : afterEquals? ahead = some valueText) :
    ∃ start, valueStart? (encode text) place = some start ∧ IsAhead text start valueText := by
  rcases exists_of_afterEquals? found with ⟨before, behind, rfl, longestBefore, longestBehind⟩
  have sign := here.advance
  have skipped := here.skip_of_longestRun isCoarse_isSpace longestBefore
  have valued : IsAhead text (place + byteLength before + 1) (behind ++ valueText) :=
    sign.advance_ascii (by decide)
  have seenSign : seen (encode text) (· == '=') (place + byteLength before) = true := by
    rw [sign.seen_eq (isCoarse_eq (by decide))]
    rfl
  refine ⟨_, ?_, valued.advance⟩
  rw [valueStart?, skipped, if_pos seenSign,
    valued.skip_of_longestRun isCoarse_isSpace longestBehind]

theorem valueStart?_eq_none (here : IsAhead text place ahead)
    (missing : afterEquals? ahead = none) : valueStart? (encode text) place = none := by
  have whole := List.takeWhile_append_dropWhile (p := isSpace) (l := ahead)
  have longest := longestRun_takeWhile isSpace ahead
  rw [← whole] at here
  have noSign : (ahead.dropWhile isSpace).head?.any (· == '=') = false := by
    unfold afterEquals? at missing
    split at missing
    next => exact nomatch missing
    next other =>
      cases spelled : ahead.dropWhile isSpace with
      | nil => rfl
      | cons first rest =>
          rw [List.head?_cons, Option.any_some, beq_eq_false_iff_ne]
          rintro rfl
          exact other rest spelled
  rw [valueStart?, here.skip_of_longestRun isCoarse_isSpace longest,
    here.advance.seen_eq (isCoarse_eq (by decide)), noSign]
  rfl

/-- The places are those of a value in the text, and of what follows it. -/
structure ValuePlaces.Around (places : ValuePlaces) (text value rest : List Char) : Prop where
  first_ahead : ∃ behind, IsAhead text places.first (value ++ behind)
  stop_eq : places.stop = places.first + byteLength value
  next_ahead : IsAhead text places.next rest

theorem barePlaces_around (here : IsAhead text place ahead) :
    (barePlaces (encode text) place).Around text (ahead.takeWhile isBareChar)
      (ahead.dropWhile isBareChar) := by
  have stop := here.skip_eq isCoarse_isBareChar
  rw [← List.takeWhile_append_dropWhile (p := isBareChar) (l := ahead)] at here
  refine ⟨⟨_, here⟩, stop, ?_⟩
  rw [barePlaces, stop]
  exact here.advance

/-- The bytes behind a quote are those of the text behind it. -/
theorem quotedPlaces?_eq {quote : Char} {rest : List Char} (ascii : quote.toNat < 128)
    (here : IsAhead text place (quote :: rest)) :
    quotedPlaces? (encode text) quote place =
      .ok ((nextPlace? (encode rest) quote 0).map fun length =>
        ⟨place + 1, place + 1 + length, place + 1 + length + 1⟩) := by
  have behind := here.advance_ascii ascii
  have length := behind.length_encode
  have cut : cutBytes (encode text) (place + 1) (encode text).length = .ok (encode rest) := by
    rw [cutBytes, if_pos ⟨by omega, Nat.le_refl _⟩, List.take_length, behind.drop_encode]
  rw [quotedPlaces?, cut]
  rfl

theorem valuePlaces_of_quote {quote : Char} {rest : List Char} (isQuote : isQuote quote = true)
    (here : IsAhead text place (quote :: rest)) :
    valuePlaces (encode text) place =
      .ok (((nextPlace? (encode rest) quote 0).map fun length =>
        ⟨place + 1, place + 1 + length, place + 1 + length + 1⟩).getD
          (barePlaces (encode text) place)) := by
  have ascii := ascii_of_isQuote isQuote
  have found : (encode text)[place]?.filter (byteClass Markup.isQuote) = some quote.toUInt8 := by
    rw [here.getElem?_encode_cons ascii, Option.filter_some, byteClass, ofUInt8_toUInt8 ascii,
      isQuote]
    rfl
  rw [valuePlaces, found]
  simp only [ofUInt8_toUInt8 ascii, quotedPlaces?_eq ascii here, Except.map]

theorem valuePlaces_of_noQuote (noQuote : ahead.head?.any isQuote = false)
    (here : IsAhead text place ahead) :
    valuePlaces (encode text) place = .ok (barePlaces (encode text) place) := by
  have coarse : IsCoarse isQuote := isCoarse_of_ascii fun _ => ascii_of_isQuote
  have unseen := here.seen_eq coarse
  rw [noQuote, seen] at unseen
  have nothing : (encode text)[place]?.filter (byteClass isQuote) = none := by
    cases found : (encode text)[place]? with
    | none => rfl
    | some byte =>
        rw [found, Option.any_some] at unseen
        rw [Option.filter_some, unseen]
        rfl
  rw [valuePlaces, nothing]

/-- A value is found where it begins, and no cut is refused on the way. -/
theorem exists_valuePlaces (here : IsAhead text place ahead) :
    ∃ places, valuePlaces (encode text) place = .ok places ∧
      places.Around text (readValue ahead).1 (readValue ahead).2 := by
  have bare := barePlaces_around here
  cases ahead with
  | nil => exact ⟨_, valuePlaces_of_noQuote rfl here, bare⟩
  | cons first rest =>
      by_cases isQuote : isQuote first = true
      · have ascii := ascii_of_isQuote isQuote
        have found := valuePlaces_of_quote isQuote here
        by_cases again : first ∈ rest
        · rcases List.eq_append_cons_of_mem again with ⟨value, after, rfl, unquoted⟩
          have next := (isAhead_zero (value ++ first :: after)).nextPlace?_of_mem ascii unquoted
          rw [next, Nat.zero_add] at found
          have opened := here.advance_ascii ascii
          have closed := opened.advance.advance_ascii ascii
          rw [readValue_quoted isQuote unquoted]
          exact ⟨_, found, ⟨_, opened⟩, rfl, closed⟩
        · have next := (isAhead_zero rest).nextPlace?_of_not_mem ascii again
          rw [next] at found
          rw [readValue_of_unclosed fun _ => again]
          exact ⟨_, found, bare⟩
      · have noQuote : (first :: rest).head?.any Markup.isQuote = false :=
          Bool.eq_false_iff.mpr isQuote
        rw [readValue_of_unclosed fun quoted => absurd quoted isQuote]
        exact ⟨_, valuePlaces_of_noQuote noQuote here, bare⟩

end Reading

end Markup

namespace Slice

variable {whole : List Char}

def readPairs (source : Slice whole) (place : Nat) :
    Except BadCut (List (Slice whole × Slice whole)) :=
  if place < source.bytes.length then
    if named : seen source.bytes Markup.isNameStart place then do
      let name ← source.cut place (skip source.bytes Markup.isNameChar place)
      match _ : Markup.valueStart? source.bytes
          (skip source.bytes Markup.isNameChar place) with
      | none => readPairs source (skip source.bytes Markup.isNameChar place)
      | some start =>
          match _ : Markup.valuePlaces source.bytes start with
          | .error bad => .error bad
          | .ok places => do
              let value ← source.cut places.first places.stop
              let rest ← readPairs source places.next
              .ok ((name, value) :: rest)
    else readPairs source (place + 1)
  else .ok []
termination_by source.bytes.length - place
decreasing_by
  · have nameStop_gt := Markup.lt_skip_of_isNameStart named
    omega
  · rename_i started found
    have nameStop_gt := Markup.lt_skip_of_isNameStart named
    have start_gt := Markup.lt_of_valueStart? started
    have next_ge := Markup.le_next_of_valuePlaces found
    omega
  · omega

section Steps

variable {source name : Slice whole} {place : Nat}

theorem readPairs_of_length_le (ended : source.bytes.length ≤ place) :
    source.readPairs place = .ok [] := by
  rw [readPairs, if_neg (Nat.not_lt.mpr ended)]

theorem readPairs_of_not_seen (inside : place < source.bytes.length)
    (other : seen source.bytes Markup.isNameStart place = false) :
    source.readPairs place = source.readPairs (place + 1) := by
  rw [readPairs, if_pos inside, dif_neg (by rw [other]; exact Bool.false_ne_true)]

theorem lt_length_of_seen {inClass : Char → Bool}
    (found : seen source.bytes inClass place = true) : place < source.bytes.length := by
  rcases (Option.any_eq_true _ _).mp found with ⟨byte, isByte, -⟩
  exact (List.getElem?_eq_some_iff.mp isByte).1

/-- One step of the reading, where a name begins. -/
theorem readPairs_of_seen (named : seen source.bytes Markup.isNameStart place = true) :
    source.readPairs place =
      source.cut place (skip source.bytes Markup.isNameChar place) >>= fun name =>
        match Markup.valueStart? source.bytes (skip source.bytes Markup.isNameChar place) with
        | none => source.readPairs (skip source.bytes Markup.isNameChar place)
        | some start =>
            Markup.valuePlaces source.bytes start >>= fun places =>
              source.cut places.first places.stop >>= fun value =>
                (source.readPairs places.next).map ((name, value) :: ·) := by
  rw [readPairs, if_pos (lt_length_of_seen named), dif_pos named]
  apply bind_congr
  intro name
  split
  next missing => rw [missing]
  next start started =>
    rw [started]
    dsimp only
    split
    next bad refused =>
      rw [refused]
      rfl
    next places valued =>
      rw [valued]
      apply bind_congr
      intro value
      cases source.readPairs places.next <;> rfl

theorem readPairs_of_none (named : seen source.bytes Markup.isNameStart place = true)
    (cutName : source.cut place (skip source.bytes Markup.isNameChar place) = .ok name)
    (missing : Markup.valueStart? source.bytes (skip source.bytes Markup.isNameChar place) = none) :
    source.readPairs place = source.readPairs (skip source.bytes Markup.isNameChar place) := by
  rw [readPairs_of_seen named, cutName, missing]
  rfl

theorem readPairs_of_some {value : Slice whole} {start : Nat} {places : Markup.ValuePlaces}
    (named : seen source.bytes Markup.isNameStart place = true)
    (cutName : source.cut place (skip source.bytes Markup.isNameChar place) = .ok name)
    (started : Markup.valueStart? source.bytes (skip source.bytes Markup.isNameChar place) =
      some start)
    (valued : Markup.valuePlaces source.bytes start = .ok places)
    (cutValue : source.cut places.first places.stop = .ok value) :
    source.readPairs place = (source.readPairs places.next).map ((name, value) :: ·) := by
  rw [readPairs_of_seen named, cutName, started]
  simp only [valued, cutValue, bind, Except.bind]

/-- No name begins at the bytes of a character that begins none. -/
theorem readPairs_of_char {first : Char} {rest : List Char}
    (other : ¬Markup.isNameStart first = true)
    (here : IsAhead source.content place (first :: rest)) :
    source.readPairs place = source.readPairs (place + first.utf8Size) := by
  have length := here.length_encode
  rw [byteLength] at length
  have passes : ∀ count, count ≤ first.utf8Size →
      source.readPairs place = source.readPairs (place + count) := by
    intro count inside
    induction count with
    | zero => rfl
    | succ count ih =>
        have unseen := here.seen_in_char isCoarse_isNameStart inside
        rw [ih (Nat.le_of_succ_le inside), readPairs_of_not_seen]
        · rfl
        · rw [bytes]
          omega
        · rw [bytes, unseen]
          exact Bool.eq_false_iff.mpr other
  exact passes first.utf8Size (Nat.le_refl _)

end Steps

/-- A name is cut out where it begins. -/
theorem exists_name {source : Slice whole} {place : Nat} {first : Char} {rest : List Char}
    (start : Markup.isNameStart first = true)
    (here : IsAhead source.content place (first :: rest)) :
    seen source.bytes Markup.isNameStart place = true ∧
      ∃ name, source.cut place (skip source.bytes Markup.isNameChar place) = .ok name ∧
        name.content = first :: rest.takeWhile Markup.isNameChar ∧
        IsAhead source.content (skip source.bytes Markup.isNameChar place)
          (rest.dropWhile Markup.isNameChar) := by
  rcases Markup.seen_name start here with ⟨named, stop, nameHere⟩
  rcases source.exists_cut_of_isAhead nameHere with ⟨name, cutName, content⟩
  rw [bytes, stop]
  exact ⟨named, name, cutName, content, nameHere.advance⟩

def text (slice : Slice whole) : String :=
  String.ofList slice.content

/-- No cut is refused, and the pairs are those that are read by characters. -/
theorem exists_readPairs (source : Slice whole) {place : Nat} {ahead : List Char}
    (here : IsAhead source.content place ahead) :
    ∃ pairs, source.readPairs place = .ok pairs ∧
      pairs.map (fun (name, value) => (name.text, value.text)) = Markup.readPairs ahead := by
  fun_induction Markup.readPairs ahead generalizing place with
  | case1 =>
      refine ⟨[], readPairs_of_length_le ?_, rfl⟩
      exact Nat.le_of_eq here.length_encode
  | case2 first rest start valueText found ih =>
      rcases exists_name start here with ⟨named, name, cutName, nameContent, behindName⟩
      rcases Markup.exists_valueStart? behindName found with ⟨valueStart, started, valueAhead⟩
      rcases Markup.exists_valuePlaces valueAhead with ⟨places, valued, around⟩
      rcases around.first_ahead with ⟨behind, valueHere⟩
      rcases source.exists_cut_of_isAhead valueHere with ⟨value, cutValue, valueContent⟩
      rcases ih around.next_ahead with ⟨pairs, read, same⟩
      rw [← around.stop_eq] at cutValue
      refine ⟨(name, value) :: pairs, ?_, ?_⟩
      · rw [readPairs_of_some named cutName started valued cutValue, read]
        rfl
      · rw [List.map_cons, same]
        simp only [text, nameContent, valueContent]
  | case3 first rest start missing ih =>
      rcases exists_name start here with ⟨named, name, cutName, -, behindName⟩
      have noValue := Markup.valueStart?_eq_none behindName missing
      rw [readPairs_of_none named cutName noValue]
      exact ih behindName
  | case4 first rest other ih =>
      rw [readPairs_of_char other here]
      exact ih here.advance_cons

end Slice

end MarkupPath
