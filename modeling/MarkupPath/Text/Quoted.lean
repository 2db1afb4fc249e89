/-!
# Quoted text

Between quotes, a quote that belongs to the text is written twice.
`Quoted.double` writes text this way, and `Quoted.read` reads it back up to the
quote that stands alone.
-/

namespace MarkupPath.Text.Quoted

/-- The text with every quote written twice. -/
def double (quote : Char) : List Char → List Char
  | [] => []
  | first :: rest =>
      if first = quote then quote :: quote :: double quote rest else first :: double quote rest

/-- Reads up to the closing quote. Gives the quoted text and what follows the closing quote. -/
def read (quote : Char) : List Char → Option (List Char × List Char)
  | [] => none
  | [last] => if last = quote then some ([], []) else none
  | first :: second :: rest =>
      if first = quote then
        if second = quote then (read quote rest).map fun (text, after) => (quote :: text, after)
        else some ([], second :: rest)
      else (read quote (second :: rest)).map fun (text, after) => (first :: text, after)

@[simp]
theorem double_append (quote : Char) (text more : List Char) :
    double quote (text ++ more) = double quote text ++ double quote more := by
  induction text with
  | nil => rfl
  | cons first rest ih => by_cases isQuote : first = quote <;> simp [double, isQuote, ih]

end MarkupPath.Text.Quoted
