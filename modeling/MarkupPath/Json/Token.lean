/-!
# JSON tokens

`Token.lex` cuts a JSON text into its tokens. White space is space, tab, newline
and carriage return, numbers have no leading zeros, and a string holds no
character below U+0020 except through an escape.

Escapes name UTF-16 code units. `Piece.combine` joins surrogate pairs and has no
answer where a surrogate stands alone, so the lexer accepts more strings than
there are texts.
-/

namespace MarkupPath.Json

def isSpace (character : Char) : Bool :=
  character = ' ' || character = '\t' || character = '\n' || character = '\r'

/-- A piece of a string as it is written. -/
inductive Piece
  /-- A character, plain or after a backslash. -/
  | plain (character : Char)
  /-- The code unit of an escape with four hexadecimal digits. -/
  | unit (code : Nat)
deriving DecidableEq, Repr

namespace Piece

def isHigh (code : Nat) : Bool :=
  0xD800 ≤ code && code < 0xDC00

def isLow (code : Nat) : Bool :=
  0xDC00 ≤ code && code < 0xE000

def ofPair (high low : Nat) : Char :=
  Char.ofNat (0x10000 + (high - 0xD800) * 0x400 + (low - 0xDC00))

/-- The text of the pieces, unless a surrogate stands alone. -/
def combine : List Piece → Option (List Char)
  | [] => some []
  | .plain character :: rest => (combine rest).map (character :: ·)
  | .unit high :: .unit low :: rest =>
      if isHigh high then
        if isLow low then (combine rest).map (ofPair high low :: ·) else none
      else if isLow high then none
      else (combine (.unit low :: rest)).map (Char.ofNat high :: ·)
  | .unit code :: rest =>
      if isHigh code || isLow code then none else (combine rest).map (Char.ofNat code :: ·)

end Piece

def hexValue? (digit : Char) : Option Nat :=
  if digit.isDigit then some (digit.toNat - '0'.toNat)
  else if 'a' ≤ digit && digit ≤ 'f' then some (digit.toNat - 'a'.toNat + 10)
  else if 'A' ≤ digit && digit ≤ 'F' then some (digit.toNat - 'A'.toNat + 10)
  else none

/-- The character that an escape of one letter stands for. -/
def escaped? : Char → Option Char
  | '"' => some '"'
  | '\\' => some '\\'
  | '/' => some '/'
  | 'b' => some '\x08'
  | 'f' => some '\x0c'
  | 'n' => some '\n'
  | 'r' => some '\r'
  | 't' => some '\t'
  | _ => none

/-- The piece that the text after a backslash stands for, and the text after it. -/
def readEscape : List Char → Option (Piece × List Char)
  | 'u' :: first :: second :: third :: fourth :: rest => do
      let first ← hexValue? first
      let second ← hexValue? second
      let third ← hexValue? third
      let fourth ← hexValue? fourth
      some (.unit (((first * 0x10 + second) * 0x10 + third) * 0x10 + fourth), rest)
  | letter :: rest => (escaped? letter).map fun character => (.plain character, rest)
  | [] => none

theorem length_lt_of_readEscape {text rest : List Char} {piece : Piece}
    (found : readEscape text = some (piece, rest)) : rest.length < text.length := by
  unfold readEscape at found
  split at found
  · simp only [Option.bind_eq_bind, Option.bind_eq_some_iff, Option.some.injEq, Prod.mk.injEq]
      at found
    rcases found with ⟨_, _, _, _, _, _, _, _, _, rfl⟩
    simp only [List.length_cons]
    omega
  · rcases Option.map_eq_some_iff.mp found with ⟨_, _, parts⟩
    simp only [Prod.mk.injEq] at parts
    rw [← parts.2]
    exact Nat.lt_succ_self _
  · simp at found

/-- The pieces of a string up to its closing quote, and the text after it. -/
def readPieces : List Char → Option (List Piece × List Char)
  | [] => none
  | first :: rest =>
      if first = '"' then some ([], rest)
      else if first = '\\' then
        match _ : readEscape rest with
        | some (piece, after) =>
            (readPieces after).map fun (pieces, tail) => (piece :: pieces, tail)
        | none => none
      else if first.toNat < 0x20 then none
      else (readPieces rest).map fun (pieces, tail) => (.plain first :: pieces, tail)
termination_by text => text.length
decreasing_by
  · rename_i found
    have := length_lt_of_readEscape found
    simp only [List.length_cons]
    omega
  · simp

theorem readPieces_escape (rest : List Char) :
    readPieces ('\\' :: rest) =
      (readEscape rest).bind fun (piece, after) =>
        (readPieces after).map fun (pieces, tail) => (piece :: pieces, tail) := by
  rw [readPieces, if_neg (by decide), if_pos rfl]
  split
  next escape => rw [escape, Option.bind_some]
  next escape => rw [escape, Option.bind_none]

theorem length_le_of_readPieces {text rest : List Char} {pieces : List Piece}
    (found : readPieces text = some (pieces, rest)) : rest.length ≤ text.length := by
  induction text using readPieces.induct generalizing pieces rest with
  | case1 => simp [readPieces] at found
  | case2 tail =>
      simp only [readPieces, if_true, Option.some.injEq, Prod.mk.injEq] at found
      simp [← found.2]
  | case3 tail piece after escape _ ih =>
      rw [readPieces_escape, escape, Option.bind_some] at found
      rcases Option.map_eq_some_iff.mp found with ⟨⟨inner, remaining⟩, inside, parts⟩
      simp only [Prod.mk.injEq] at parts
      have := ih inside
      have := length_lt_of_readEscape escape
      rw [← parts.2, List.length_cons]
      omega
  | case4 tail escape =>
      rw [readPieces_escape, escape] at found
      exact nomatch found
  | case5 first tail notQuote notEscape control =>
      simp [readPieces, notQuote, notEscape, control] at found
  | case6 first tail notQuote notEscape plain ih =>
      rw [readPieces, if_neg notQuote, if_neg notEscape, if_neg plain] at found
      rcases Option.map_eq_some_iff.mp found with ⟨⟨inner, remaining⟩, inside, parts⟩
      simp only [Prod.mk.injEq] at parts
      have := ih inside
      rw [← parts.2, List.length_cons]
      omega

def afterDigits? : List Char → Option (List Char)
  | [] => none
  | first :: rest => if first.isDigit then some (rest.dropWhile Char.isDigit) else none

/-- The text after the digits before the decimal point. A leading zero is the only one. -/
def afterWhole? : List Char → Option (List Char)
  | '0' :: rest => some rest
  | text => afterDigits? text

/-- The text after a decimal point and its digits, if there is a point. -/
def afterFraction? : List Char → Option (List Char)
  | '.' :: rest => afterDigits? rest
  | text => some text

def afterSign : List Char → List Char
  | '+' :: rest => rest
  | '-' :: rest => rest
  | text => text

def afterExponent? : List Char → Option (List Char)
  | 'e' :: rest => afterDigits? (afterSign rest)
  | 'E' :: rest => afterDigits? (afterSign rest)
  | text => some text

def afterMinus : List Char → List Char
  | '-' :: rest => rest
  | text => text

def afterNumber? (text : List Char) : Option (List Char) := do
  let afterWhole ← afterWhole? (afterMinus text)
  let afterFraction ← afterFraction? afterWhole
  afterExponent? afterFraction

theorem length_lt_of_afterDigits? {text rest : List Char} (found : afterDigits? text = some rest) :
    rest.length < text.length := by
  cases text with
  | nil => simp [afterDigits?] at found
  | cons first tail =>
      have shorter := (List.dropWhile_sublist (l := tail) Char.isDigit).length_le
      by_cases digit : first.isDigit = true
      · simp only [afterDigits?, digit, if_true, Option.some.injEq] at found
        rw [← found, List.length_cons]
        omega
      · simp [afterDigits?, digit] at found

theorem length_lt_of_afterWhole? {text rest : List Char} (found : afterWhole? text = some rest) :
    rest.length < text.length := by
  unfold afterWhole? at found
  split at found
  · simp only [Option.some.injEq] at found
    simp [← found]
  · exact length_lt_of_afterDigits? found

theorem length_le_of_afterFraction? {text rest : List Char}
    (found : afterFraction? text = some rest) : rest.length ≤ text.length := by
  unfold afterFraction? at found
  split at found
  · exact Nat.le_succ_of_le (Nat.le_of_lt (length_lt_of_afterDigits? found))
  · simp only [Option.some.injEq] at found
    simp [← found]

theorem length_afterSign_le (text : List Char) : (afterSign text).length ≤ text.length := by
  unfold afterSign
  split <;> simp

theorem length_le_of_afterExponent? {text rest : List Char}
    (found : afterExponent? text = some rest) : rest.length ≤ text.length := by
  unfold afterExponent? at found
  split at found
  next tail =>
    have digits := length_lt_of_afterDigits? found
    have sign := length_afterSign_le tail
    simp only [List.length_cons]
    omega
  next tail =>
    have digits := length_lt_of_afterDigits? found
    have sign := length_afterSign_le tail
    simp only [List.length_cons]
    omega
  next =>
    simp only [Option.some.injEq] at found
    simp [← found]

theorem length_afterMinus_le (text : List Char) : (afterMinus text).length ≤ text.length := by
  unfold afterMinus
  split <;> simp

theorem length_lt_of_afterNumber? {text rest : List Char} (found : afterNumber? text = some rest) :
    rest.length < text.length := by
  simp only [afterNumber?, Option.bind_eq_bind, Option.bind_eq_some_iff] at found
  rcases found with ⟨afterWhole, whole, afterFraction, fraction, exponent⟩
  have := length_afterMinus_le text
  have := length_lt_of_afterWhole? whole
  have := length_le_of_afterFraction? fraction
  have := length_le_of_afterExponent? exponent
  omega

inductive Token
  | beginArray
  | endArray
  | beginObject
  | endObject
  | colon
  | comma
  | null
  | bool (truth : Bool)
  | number
  | string (text : Option String)
deriving DecidableEq, Repr

namespace Token

/-- The token of a word whose first letter has been read. -/
def ofWord (token : Token) (letters : List Char) (text : List Char) :
    Option (Token × List Char) :=
  if letters.isPrefixOf text then some (token, text.drop letters.length) else none

def read (first : Char) (rest : List Char) : Option (Token × List Char) :=
  match first with
  | '[' => some (.beginArray, rest)
  | ']' => some (.endArray, rest)
  | '{' => some (.beginObject, rest)
  | '}' => some (.endObject, rest)
  | ':' => some (.colon, rest)
  | ',' => some (.comma, rest)
  | 'n' => ofWord .null ['u', 'l', 'l'] rest
  | 't' => ofWord (.bool true) ['r', 'u', 'e'] rest
  | 'f' => ofWord (.bool false) ['a', 'l', 's', 'e'] rest
  | '"' =>
      (readPieces rest).map fun (pieces, after) =>
        (.string ((Piece.combine pieces).map String.ofList), after)
  | _ => (afterNumber? (first :: rest)).map fun after => (.number, after)

theorem length_le_of_ofWord {token found : Token} {letters text rest : List Char}
    (word : ofWord token letters text = some (found, rest)) : rest.length ≤ text.length := by
  unfold ofWord at word
  split at word
  · simp only [Option.some.injEq, Prod.mk.injEq] at word
    simp [← word.2]
  · simp at word

theorem length_le_of_read {first : Char} {rest after : List Char} {token : Token}
    (found : read first rest = some (token, after)) : after.length ≤ rest.length := by
  unfold read at found
  split at found
  case h_7 | h_8 | h_9 => exact length_le_of_ofWord found
  case h_10 =>
    rcases Option.map_eq_some_iff.mp found with ⟨⟨pieces, tail⟩, string, parts⟩
    simp only [Prod.mk.injEq] at parts
    rw [← parts.2]
    exact length_le_of_readPieces string
  case h_11 =>
    rcases Option.map_eq_some_iff.mp found with ⟨tail, number, parts⟩
    simp only [Prod.mk.injEq] at parts
    rw [← parts.2]
    exact Nat.le_of_lt_succ (length_lt_of_afterNumber? number)
  all_goals
    simp only [Option.some.injEq, Prod.mk.injEq] at found
    simp [← found.2]

def lex : List Char → Option (List Token)
  | [] => some []
  | first :: rest =>
      if isSpace first then lex rest
      else
        match _ : read first rest with
        | some (token, after) => (lex after).map (token :: ·)
        | none => none
termination_by text => text.length
decreasing_by
  · simp
  · rename_i found
    have := length_le_of_read found
    simp only [List.length_cons]
    omega

end Token

end MarkupPath.Json
