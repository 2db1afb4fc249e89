import MarkupPath.Glob.Pattern

/-!
# Matching paths

`Pattern.accepts` decides whether a pattern describes a path as a whole. A
sequence of unknown length is tried from the shortest to the longest. When the
path ends while the pattern still asks for a character, longer sequences would
only leave less of it, so the whole match fails at once.
-/

namespace MarkupPath.Glob

/-- How matching the rest of a pattern against the rest of a path ends. -/
inductive Outcome
  | matched
  | mismatch
  /-- The path ends where a character is asked for. -/
  | exhausted
deriving DecidableEq, Repr

/-- The outcome for the first of the candidates that is not a mismatch. -/
def firstDecisive (outcome : List Char → Outcome) : List (List Char) → Outcome
  | [] => .mismatch
  | candidate :: rest =>
      match outcome candidate with
      | .mismatch => firstDecisive outcome rest
      | decisive => decisive

/-- What can remain of a path after any sequence of characters. -/
def suffixes : List Char → List (List Char)
  | [] => [[]]
  | first :: rest => (first :: rest) :: suffixes rest

/-- What can remain of a path after a sequence that ends in a slash, or after the whole path. -/
def afterSlashes : List Char → List (List Char)
  | [] => [[]]
  | first :: rest => if first = '/' then rest :: afterSlashes rest else afterSlashes rest

def Token.accepts (token : Token) (character : Char) : Bool :=
  match token with
  | .char wanted => character = wanted
  | .anyChar => true
  | .within ranges => ranges.any (·.contains character)
  | .except ranges => !ranges.any (·.contains character)
  | .anySequence => false
  | .anyFolders => false

def matchTokens : List Token → List Char → Outcome
  | [], path => if path.isEmpty then .matched else .mismatch
  | token :: tokens, path =>
      match token with
      | .anySequence => firstDecisive (matchTokens tokens) (suffixes path)
      | .anyFolders => firstDecisive (matchTokens tokens) (path :: afterSlashes path)
      | single =>
          match path with
          | [] => .exhausted
          | first :: rest => if single.accepts first then matchTokens tokens rest else .mismatch

def Pattern.accepts (pattern : Pattern) (path : String) : Bool :=
  matchTokens pattern.tokens path.toList = .matched

end MarkupPath.Glob
