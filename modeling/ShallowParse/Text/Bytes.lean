/-
This file counts the bytes of texts in UTF-8.
-/

namespace ShallowParse.Text

/-- The number of bytes of a text. -/
def byteLength : List Char → Nat
  | [] => 0
  | char :: rest => char.utf8Size + byteLength rest

/-- The text after its first bytes, which must be those of whole characters. -/
def dropBytes : Nat → List Char → List Char
  | _, [] => []
  | 0, text => text
  | count + 1, char :: rest => dropBytes (count + 1 - char.utf8Size) rest

end ShallowParse.Text
