/-
This file sorts texts by the code points of their characters and drops repeated
ones.
-/

namespace ShallowParse.Text

/-- A text added to a strictly increasing list of texts. -/
def insertSorted (text : String) : List String → List String
  | [] => [text]
  | first :: rest =>
    if text < first then text :: first :: rest
    else if text = first then first :: rest
    else first :: insertSorted text rest

/-- The texts of a list, each once and in increasing order. -/
def sorted (texts : List String) : List String :=
  texts.foldr insertSorted []

end ShallowParse.Text
