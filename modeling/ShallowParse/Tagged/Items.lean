/-
This file reads the words of a sentence from a row of items, each of which shows one
word. Reading ends at the first item that shows none, which is reported with its place.
-/

import ShallowParse.MalformedInput
import ShallowParse.Tree

namespace ShallowParse

/-- Reads items one after the other, the first of which has the given place. -/
def Token.allOf {Item : Type} (read : Item → Except InputFault Token) (index : Nat) :
    List Item → Except MalformedInput (List Token)
  | [] => .ok []
  | item :: items => do
    let token ← (read item).mapError (⟨index, ·⟩)
    let others ← Token.allOf read (index + 1) items
    return token :: others

end ShallowParse
