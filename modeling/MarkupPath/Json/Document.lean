import MarkupPath.Json.Token
import MarkupPath.Json.Value

/-!
# JSON documents

A JSON document is one value. `Value.ofTokens?` reads its tokens from left to
right with the containers that are still open on a stack, so no document is
nested too deeply for it.
-/

namespace MarkupPath.Json

/-- A container that has begun, with what it holds so far, the last first. -/
inductive Container
  | array (before : List Value)
  | object (before : List (Option String × Value))
  /-- An object in which the value of a key is being read. -/
  | field (before : List (Option String × Value)) (key : Option String)
deriving Repr

/-- What the next token may be. -/
inductive Expectation
  | value
  | valueOrEnd
  | key
  | keyOrEnd
  | colon
  /-- A comma, or the end of the innermost container. -/
  | separator
  /-- The document has been read, and this is it. -/
  | nothing (document : Value)
deriving Repr

/-- A document of which the first tokens have been read. -/
structure Unfinished where
  /-- The containers that are open, the innermost first. -/
  opened : List Container := []
  expected : Expectation := .value
deriving Repr

namespace Unfinished

/-- A value is complete and goes into the innermost of the containers. -/
def complete (value : Value) : List Container → Option Unfinished
  | [] => some ⟨[], .nothing value⟩
  | .array before :: outer => some ⟨.array (value :: before) :: outer, .separator⟩
  | .field before key :: outer => some ⟨.object ((key, value) :: before) :: outer, .separator⟩
  | .object _ :: _ => none

def beginValue (opened : List Container) : Token → Option Unfinished
  | .null => complete .null opened
  | .bool truth => complete (.bool truth) opened
  | .number => complete .number opened
  | .string text => complete (.string text) opened
  | .beginArray => some ⟨.array [] :: opened, .valueOrEnd⟩
  | .beginObject => some ⟨.object [] :: opened, .keyOrEnd⟩
  | _ => none

def beginField (opened : List Container) (token : Token) : Option Unfinished :=
  match token, opened with
  | .string key, .object before :: outer => some ⟨.field before key :: outer, .colon⟩
  | _, _ => none

def endContainer (opened : List Container) (token : Token) : Option Unfinished :=
  match token, opened with
  | .endArray, .array before :: outer => complete (.array before.reverse) outer
  | .endObject, .object before :: outer => complete (.object before.reverse) outer
  | _, _ => none

def separate (opened : List Container) (token : Token) : Option Unfinished :=
  match token, opened with
  | .comma, .array _ :: _ => some ⟨opened, .value⟩
  | .comma, .object _ :: _ => some ⟨opened, .key⟩
  | _, _ => none

def feed (document : Unfinished) (token : Token) : Option Unfinished :=
  let opened := document.opened
  match document.expected with
  | .value => beginValue opened token
  | .valueOrEnd => endContainer opened token <|> beginValue opened token
  | .key => beginField opened token
  | .keyOrEnd => endContainer opened token <|> beginField opened token
  | .colon => if token = .colon then some ⟨opened, .value⟩ else none
  | .separator => endContainer opened token <|> separate opened token
  | .nothing _ => none

def finish (document : Unfinished) : Option Value :=
  match document.expected with
  | .nothing value => some value
  | _ => none

end Unfinished

namespace Value

def ofTokens? (tokens : List Token) : Option Value := do
  let document ← tokens.foldlM Unfinished.feed {}
  document.finish

def ofText? (text : String) : Option Value := do
  let tokens ← Token.lex text.toList
  ofTokens? tokens

end Value

end MarkupPath.Json
