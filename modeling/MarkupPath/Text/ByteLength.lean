/-!
# Lengths in bytes

Texts are read character by character and measured in UTF-8 bytes. The length of
a text is the sum of the lengths of its characters, and agrees with the size of
the string that holds them.
-/

namespace MarkupPath.Text

/-- The number of bytes of a text in UTF-8. -/
def byteLength : List Char → Nat
  | [] => 0
  | first :: rest => first.utf8Size + byteLength rest

@[simp]
theorem byteLength_append (text more : List Char) :
    byteLength (text ++ more) = byteLength text + byteLength more := by
  induction text with
  | nil => simp [byteLength]
  | cons first rest ih => simp [byteLength, ih, Nat.add_assoc]

theorem length_le_byteLength (text : List Char) : text.length ≤ byteLength text := by
  induction text with
  | nil => exact Nat.le_refl 0
  | cons first rest ih =>
      have width := first.utf8Size_pos
      simp only [byteLength, List.length_cons]
      omega

theorem utf8ByteSize_ofList (text : List Char) :
    (String.ofList text).utf8ByteSize = byteLength text := by
  induction text with
  | nil => rfl
  | cons first rest ih => simp [byteLength, ← ih, String.ofList_cons]

end MarkupPath.Text
