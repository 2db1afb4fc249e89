import MarkupPath.Proofs.Text.Bytes

/-!
# Slices

A reader that goes by bytes does not copy what it reads. It cuts slices out of the
text, each by the places of its two ends, and a cut that would go through a
character is refused. What is left of this check when a slice has been cut is kept
in its type: a slice is a part of the text between two of its characters.
-/

namespace MarkupPath

/-- The ends of a part that cannot be cut out. -/
structure BadCut where
  first : Nat
  stop : Nat
deriving DecidableEq, Repr

namespace Text

/-- The bytes between two places. Bytes can be cut anywhere, but not beyond their end. -/
def cutBytes (bytes : List UInt8) (first stop : Nat) : Except BadCut (List UInt8) :=
  if first ≤ stop ∧ stop ≤ bytes.length then .ok ((bytes.take stop).drop first)
  else .error ⟨first, stop⟩

/-- Cuts a text in two behind so many bytes, unless this is in a character or beyond the end. -/
def splitBytes? : Nat → List Char → Option (List Char × List Char)
  | 0, text => some ([], text)
  | _ + 1, [] => none
  | count + 1, first :: rest =>
      if first.utf8Size ≤ count + 1 then
        (splitBytes? (count + 1 - first.utf8Size) rest).map fun (front, back) =>
          (first :: front, back)
      else none

theorem splitBytes?_append (front back : List Char) :
    splitBytes? (byteLength front) (front ++ back) = some (front, back) := by
  induction front with
  | nil => cases back <;> rfl
  | cons first front ih =>
      have width := first.utf8Size_pos
      rcases Nat.exists_eq_add_one_of_ne_zero (n := byteLength (first :: front))
        (by rw [byteLength]; omega) with ⟨count, isCount⟩
      rw [isCount, List.cons_append, splitBytes?, ← isCount, byteLength,
        if_pos (Nat.le_add_right _ _), Nat.add_sub_cancel_left, ih]
      rfl

theorem splitBytes?_eq_some_iff {count : Nat} {text front back : List Char} :
    splitBytes? count text = some (front, back) ↔
      text = front ++ back ∧ byteLength front = count := by
  constructor
  · intro found
    fun_induction splitBytes? count text generalizing front back with
    | case1 text =>
        rcases found with ⟨rfl, rfl⟩
        exact ⟨rfl, rfl⟩
    | case2 count => exact nomatch found
    | case3 count first rest fits ih =>
        rcases Option.map_eq_some_iff.mp found with ⟨⟨inner, behind⟩, isInner, parts⟩
        rcases Prod.mk.inj parts with ⟨rfl, rfl⟩
        rcases ih isInner with ⟨rfl, length⟩
        refine ⟨rfl, ?_⟩
        rw [byteLength, length]
        omega
    | case4 count first rest wide => exact nomatch found
  · rintro ⟨rfl, rfl⟩
    exact splitBytes?_append front back

/-- A text is cut exactly where its characters meet. -/
theorem isValid_iff_exists_append {text : List Char} {place : Nat} :
    String.Pos.Raw.IsValid (String.ofList text) ⟨place⟩ ↔
      ∃ front back, text = front ++ back ∧ byteLength front = place := by
  rw [String.Pos.Raw.isValid_ofList]
  simp only [utf8ByteSize_ofList]
  constructor
  · rintro ⟨count, rfl⟩
    exact ⟨text.take count, text.drop count, (List.take_append_drop count text).symm, rfl⟩
  · rintro ⟨front, back, rfl, rfl⟩
    exact ⟨front.length, by rw [List.take_left]⟩

end Text

open Text

/-- A part of a text between two of its characters, with what is before it and behind it. -/
structure Slice (whole : List Char) where
  before : List Char
  content : List Char
  behind : List Char
  whole_eq : whole = before ++ (content ++ behind)

namespace Slice

variable {whole : List Char}

def all (whole : List Char) : Slice whole :=
  ⟨[], whole, [], by simp⟩

def bytes (slice : Slice whole) : List UInt8 :=
  encode slice.content

/-- Where the slice begins in the bytes of the text. -/
def first (slice : Slice whole) : Nat :=
  byteLength slice.before

/-- Where the slice ends in the bytes of the text. -/
def stop (slice : Slice whole) : Nat :=
  slice.first + slice.bytes.length

def narrow (slice : Slice whole) (front content back : List Char)
    (split : slice.content = front ++ (content ++ back)) : Slice whole where
  before := slice.before ++ front
  content := content
  behind := back ++ slice.behind
  whole_eq := by
    apply slice.whole_eq.trans
    rw [split]
    simp

/-- The part of a slice between two places, both counted from its own beginning. -/
def cut (slice : Slice whole) (first stop : Nat) : Except BadCut (Slice whole) :=
  if first ≤ stop then
    match outer : splitBytes? first slice.content with
    | none => .error ⟨first, stop⟩
    | some (front, rest) =>
        match inner : splitBytes? (stop - first) rest with
        | none => .error ⟨first, stop⟩
        | some (content, back) =>
            .ok (slice.narrow front content back (by
              rw [(splitBytes?_eq_some_iff.mp outer).1, (splitBytes?_eq_some_iff.mp inner).1]))
  else .error ⟨first, stop⟩

def cutFrom (slice : Slice whole) (first : Nat) : Except BadCut (Slice whole) :=
  slice.cut first slice.bytes.length

def dropWhile (inClass : Char → Bool) (slice : Slice whole) : Slice whole :=
  slice.narrow (slice.content.takeWhile inClass) (slice.content.dropWhile inClass) [] (by simp)

def dropLastWhile (inClass : Char → Bool) (slice : Slice whole) : Slice whole :=
  slice.narrow [] (slice.content.reverse.dropWhile inClass).reverse
    (slice.content.reverse.takeWhile inClass).reverse (by
      rw [List.nil_append, ← List.reverse_append, List.takeWhile_append_dropWhile,
        List.reverse_reverse])

/-- What is behind a mark that the slice begins with. -/
def after? (mark : Char) (slice : Slice whole) : Option (Slice whole) :=
  match isContent : slice.content with
  | [] => none
  | first :: rest =>
      if first = mark then some (slice.narrow [first] rest [] (by simp [isContent])) else none

/-- What is before a mark that the slice ends with. -/
def before? (mark : Char) (slice : Slice whole) : Option (Slice whole) :=
  if isLast : slice.content.getLast? = some mark then
    some (slice.narrow [] slice.content.dropLast [mark]
      (List.dropLast_append_getLast? mark isLast).symm)
  else none

theorem content_after? (mark : Char) (slice : Slice whole) :
    (slice.after? mark).map content =
      match slice.content with
      | [] => none
      | first :: rest => if first = mark then some rest else none := by
  unfold after?
  split
  next isContent => rw [isContent]; rfl
  next first rest isContent => by_cases isMark : first = mark <;> simp [isContent, isMark, narrow]

theorem exists_before? {mark : Char} (slice : Slice whole)
    (isLast : slice.content.getLast? = some mark) :
    ∃ piece, slice.before? mark = some piece ∧ piece.content = slice.content.dropLast := by
  rw [before?, dif_pos isLast]
  exact ⟨_, rfl, rfl⟩

theorem before?_eq_none {mark : Char} (slice : Slice whole)
    (other : ¬slice.content.getLast? = some mark) : slice.before? mark = none := by
  rw [before?, dif_neg other]

theorem length_bytes (slice : Slice whole) : slice.bytes.length = byteLength slice.content :=
  length_encode slice.content

theorem exists_cut {slice : Slice whole} {front middle back : List Char}
    (split : slice.content = front ++ (middle ++ back)) :
    ∃ piece, slice.cut (byteLength front) (byteLength (front ++ middle)) = .ok piece ∧
      piece.content = middle := by
  have ordered : byteLength front ≤ byteLength (front ++ middle) := by
    rw [byteLength_append]
    exact Nat.le_add_right _ _
  have outer := splitBytes?_append front (middle ++ back)
  have inner := splitBytes?_append middle back
  have width : byteLength (front ++ middle) - byteLength front = byteLength middle := by
    rw [byteLength_append, Nat.add_sub_cancel_left]
  rw [← split] at outer
  rw [cut, if_pos ordered]
  split
  next isNone => exact nomatch outer.symm.trans isNone
  next _ rest isOuter =>
    rcases Prod.mk.inj (Option.some.inj (outer.symm.trans isOuter)) with ⟨rfl, rfl⟩
    rw [← width] at inner
    split
    next isNone => exact nomatch inner.symm.trans isNone
    next _ _ isInner =>
      rcases Prod.mk.inj (Option.some.inj (inner.symm.trans isInner)) with ⟨rfl, rfl⟩
      exact ⟨_, rfl, rfl⟩

theorem exists_cutFrom {slice : Slice whole} {front back : List Char}
    (split : slice.content = front ++ back) :
    ∃ piece, slice.cutFrom (byteLength front) = .ok piece ∧ piece.content = back := by
  have parts : slice.content = front ++ (back ++ []) := by rw [List.append_nil, split]
  have made := exists_cut parts
  rw [← split, ← length_bytes] at made
  exact made

/-- What a cut gives is between its two ends. -/
theorem exists_of_cut {slice made : Slice whole} {first stop : Nat}
    (isCut : slice.cut first stop = .ok made) :
    ∃ front back, slice.content = front ++ (made.content ++ back) ∧ byteLength front = first ∧
      byteLength (front ++ made.content) = stop := by
  unfold cut at isCut
  split at isCut
  next ordered =>
    split at isCut
    next => exact nomatch isCut
    next front rest outer =>
      split at isCut
      next => exact nomatch isCut
      next content back inner =>
        rcases Except.ok.inj isCut with rfl
        rcases splitBytes?_eq_some_iff.mp outer with ⟨split, length⟩
        rcases splitBytes?_eq_some_iff.mp inner with ⟨rfl, width⟩
        refine ⟨front, back, split, length, ?_⟩
        rw [narrow, byteLength_append, width]
        omega
  next => exact nomatch isCut

/-- A cut is made if and only if both ends are between characters of the slice. -/
theorem exists_cut_iff {slice : Slice whole} {first stop : Nat} :
    (∃ piece, slice.cut first stop = .ok piece) ↔
      first ≤ stop ∧ String.Pos.Raw.IsValid (String.ofList slice.content) ⟨first⟩ ∧
        String.Pos.Raw.IsValid (String.ofList slice.content) ⟨stop⟩ := by
  simp only [isValid_iff_exists_append]
  constructor
  · rintro ⟨piece, made⟩
    rcases exists_of_cut made with ⟨front, back, split, rfl, rfl⟩
    refine ⟨?_, ⟨front, _, split, rfl⟩, front ++ piece.content, back, ?_, rfl⟩
    · rw [byteLength_append]
      exact Nat.le_add_right _ _
    · rw [split, List.append_assoc]
  · rintro ⟨ordered, ⟨front, rest, split, rfl⟩, other, back, otherSplit, rfl⟩
    rcases List.append_eq_append_iff.mp (split.symm.trans otherSplit) with
      ⟨middle, rfl, rfl⟩ | ⟨middle, rfl, rfl⟩
    · rcases exists_cut split with ⟨piece, made, -⟩
      exact ⟨piece, made⟩
    · rw [byteLength_append] at ordered
      have short := length_le_byteLength middle
      have nothing : middle = [] := List.length_eq_zero_iff.mp (by omega)
      subst nothing
      rw [List.append_nil] at split ⊢
      have parts : slice.content = other ++ ([] ++ rest) := split
      rcases exists_cut parts with ⟨piece, made, -⟩
      rw [List.append_nil] at made
      exact ⟨piece, made⟩

/-- The two ends of a slice are between characters of the text, and its bytes between them. -/
theorem ends_valid {text : String} (slice : Slice text.toList) :
    slice.first ≤ slice.stop ∧ slice.stop ≤ text.utf8ByteSize ∧
      String.Pos.Raw.IsValid text ⟨slice.first⟩ ∧ String.Pos.Raw.IsValid text ⟨slice.stop⟩ ∧
      ((Text.bytes text).take slice.stop).drop slice.first = encode slice.content := by
  have whole := slice.whole_eq
  have stop : slice.stop = byteLength (slice.before ++ slice.content) := by
    rw [Slice.stop, Slice.first, length_bytes, byteLength_append]
  have valid : ∀ front back, text.toList = front ++ back →
      String.Pos.Raw.IsValid text ⟨byteLength front⟩ := by
    intro front back split
    rw [← String.ofList_toList (s := text)]
    exact isValid_iff_exists_append.mpr ⟨front, back, split, rfl⟩
  have wholeAgain := whole
  rw [← List.append_assoc] at wholeAgain
  have validStop := valid _ _ wholeAgain
  rw [← stop] at validStop
  refine ⟨Nat.le_add_right _ _, validStop.le_utf8ByteSize, valid _ _ whole, validStop, ?_⟩
  have encoded : Text.bytes text = encode (slice.before ++ slice.content) ++ encode slice.behind := by
    rw [bytes_eq_encode, ← encode_append, ← wholeAgain]
  rw [encoded, stop, ← length_encode, List.take_left, encode_append, Slice.first, ← length_encode,
    List.drop_left]

end Slice

end MarkupPath
