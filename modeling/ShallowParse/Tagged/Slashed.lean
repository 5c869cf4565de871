/-
This file reads a tagged sentence from a line of words such as `rose/NN`. The tag
follows the last slash of a word, so `1/2/CD` is the word `1/2` with the tag `CD`.
-/

import ShallowParse.Tagged.Items
import ShallowParse.Text.Blank

namespace ShallowParse

/-- What stands before and after the last slash. -/
def splitAtLastSlash? : List Char → Option (List Char × List Char)
  | [] => none
  | char :: rest =>
    match splitAtLastSlash? rest with
    | some (before, after) => some (char :: before, after)
    | none => if char = '/' then some ([], rest) else none

/-- Reads one word with its tag. -/
def Token.ofSlashed (item : String) : Except InputFault Token :=
  match splitAtLastSlash? item.toList with
  | none => .error (.itemWithoutSlash item)
  | some (text, tag) =>
    if text.isEmpty then .error (.itemWithoutText item)
    else if tag.isEmpty then .error (.itemWithoutTag item)
    else .ok ⟨String.ofList text, String.ofList tag⟩

/-- Reads a sentence whose words are parted by blanks. -/
def Token.ofLine (line : String) : Except MalformedInput (List Token) :=
  Token.allOf Token.ofSlashed 0 (Text.words line)

end ShallowParse
