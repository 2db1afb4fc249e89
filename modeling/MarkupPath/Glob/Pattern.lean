/-!
# Path patterns

A pattern describes paths. `?` is any character and `*` any sequence of
characters, slashes included; `**` as a whole component is any sequence of
folders; brackets hold a set of characters, or with `!` the characters outside
of it. Not every text is a pattern: `Pattern.ofText?` refuses runs of stars that
have no meaning and brackets that are not closed.
-/

namespace MarkupPath.Glob

/-- A closed range of characters in the order of code points. It may be empty. -/
structure CharRange where
  first : Char
  last : Char
deriving DecidableEq, Repr

def CharRange.contains (range : CharRange) (character : Char) : Bool :=
  range.first ≤ character && character ≤ range.last

inductive Token
  | char (character : Char)
  | anyChar
  /-- Any sequence of characters. -/
  | anySequence
  /-- Nothing, any sequence that ends in a slash, or the whole rest of the path. -/
  | anyFolders
  /-- A character in one of the ranges. -/
  | within (ranges : List CharRange)
  /-- A character in none of the ranges. -/
  | except (ranges : List CharRange)
deriving DecidableEq, Repr

/-- The ranges that the text between brackets describes. A single character is a range as well. -/
def readRanges : List Char → List CharRange
  | [] => []
  | [single] => [⟨single, single⟩]
  | [single, last] => [⟨single, single⟩, ⟨last, last⟩]
  | first :: dash :: last :: rest =>
      if dash = '-' then ⟨first, last⟩ :: readRanges rest
      else ⟨first, first⟩ :: readRanges (dash :: last :: rest)

/--
The text up to the bracket that closes a set, and the text after it. The first member may be a
closing bracket itself.
-/
def readMembers : List Char → Option (List Char × List Char)
  | [] => none
  | first :: rest =>
      if rest.contains ']' then
        some (first :: rest.takeWhile (· != ']'), (rest.dropWhile (· != ']')).drop 1)
      else none

/-- The set whose opening bracket has been read, and the text after it. -/
def readSet : List Char → Option (Token × List Char)
  | '!' :: rest =>
      (readMembers rest).map fun (members, after) => (.except (readRanges members), after)
  | rest => (readMembers rest).map fun (members, after) => (.within (readRanges members), after)

/--
The token of a run of stars, and the text after it. Two stars have to be a whole component:
`previous` is the character before them, and a slash after them belongs to the token.
-/
def readStars (previous : Option Char) (count : Nat) (after : List Char) :
    Option (Token × List Char) :=
  if count = 1 then some (.anySequence, after)
  else if count = 2 && (previous.isNone || previous = some '/') then
    match after with
    | [] => some (.anyFolders, [])
    | '/' :: rest => some (.anyFolders, rest)
    | _ => none
  else none

/-- The token that begins with a character, and the text after it. -/
def readToken (previous : Option Char) (first : Char) (rest : List Char) :
    Option (Token × List Char) :=
  match first with
  | '?' => some (.anyChar, rest)
  | '*' =>
      readStars previous ((rest.takeWhile (· = '*')).length + 1) (rest.dropWhile (· = '*'))
  | '[' => readSet rest
  | other => some (.char other, rest)

theorem length_le_of_readMembers {text members after : List Char}
    (found : readMembers text = some (members, after)) : after.length ≤ text.length := by
  cases text with
  | nil => simp [readMembers] at found
  | cons first rest =>
      have shorter := (List.dropWhile_sublist (l := rest) (· != ']')).length_le
      by_cases closed : rest.contains ']' = true
      · simp only [readMembers, closed, if_true, Option.some.injEq, Prod.mk.injEq] at found
        rw [← found.2, List.length_drop, List.length_cons]
        omega
      · rw [readMembers, if_neg closed] at found
        exact nomatch found

theorem length_le_of_readSet {text after : List Char} {token : Token}
    (found : readSet text = some (token, after)) : after.length ≤ text.length := by
  unfold readSet at found
  split at found
  · rcases Option.map_eq_some_iff.mp found with ⟨⟨members, rest⟩, set, parts⟩
    simp only [Prod.mk.injEq] at parts
    rw [← parts.2]
    exact Nat.le_succ_of_le (length_le_of_readMembers set)
  · rcases Option.map_eq_some_iff.mp found with ⟨⟨members, rest⟩, set, parts⟩
    simp only [Prod.mk.injEq] at parts
    rw [← parts.2]
    exact length_le_of_readMembers set

theorem length_le_of_readStars {previous : Option Char} {count : Nat} {text after : List Char}
    {token : Token} (found : readStars previous count text = some (token, after)) :
    after.length ≤ text.length := by
  unfold readStars at found
  split at found
  · simp only [Option.some.injEq, Prod.mk.injEq] at found
    simp [← found.2]
  split at found
  · split at found
    · simp only [Option.some.injEq, Prod.mk.injEq] at found
      simp [← found.2]
    · simp only [Option.some.injEq, Prod.mk.injEq] at found
      simp [← found.2]
    · simp at found
  · simp at found

theorem length_le_of_readToken {previous : Option Char} {first : Char} {rest after : List Char}
    {token : Token} (found : readToken previous first rest = some (token, after)) :
    after.length ≤ rest.length := by
  have stars := (List.dropWhile_sublist (l := rest) (· = '*')).length_le
  unfold readToken at found
  split at found
  · simp only [Option.some.injEq, Prod.mk.injEq] at found
    simp [← found.2]
  · exact Nat.le_trans (length_le_of_readStars found) stars
  · exact length_le_of_readSet found
  · simp only [Option.some.injEq, Prod.mk.injEq] at found
    simp [← found.2]

/-- The tokens of a pattern of which the part up to `previous` has been read. -/
def readTokens (previous : Option Char) : List Char → Option (List Token)
  | [] => some []
  | first :: rest =>
      match _ : readToken previous first rest with
      | some (token, after) =>
          let consumed := (first :: rest).take (rest.length + 1 - after.length)
          (readTokens consumed.getLast? after).map (token :: ·)
      | none => none
termination_by text => text.length
decreasing_by
  rename_i found
  have := length_le_of_readToken found
  simp only [List.length_cons]
  omega

structure Pattern where
  tokens : List Token
deriving DecidableEq, Repr

def Pattern.ofText? (text : String) : Option Pattern :=
  (readTokens none text.toList).map Pattern.mk

end MarkupPath.Glob
