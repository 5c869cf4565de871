/-
This file says what can be wrong with the words of a sentence and how it is
reported.
-/

namespace ShallowParse

/-- What is wrong with a word, or with the text it should be read from. -/
inductive InputFault where
  | itemWithoutSlash (item : String)
  | itemWithoutText (item : String)
  | itemWithoutTag (item : String)
  | notAnArray
  | notAToken
  | missingText
  | missingTag (text : String)
  | emptyText
deriving DecidableEq

/-- What a message says of a fault. What the JSON reader says of the text would follow the colon for
`notAnArray`; that is left out. -/
def InputFault.reason : InputFault → String
  | itemWithoutSlash item => "'" ++ item ++ "' has no /TAG"
  | itemWithoutText item => "'" ++ item ++ "' has no text"
  | itemWithoutTag item => "'" ++ item ++ "' has no tag"
  | notAnArray => "expected a JSON array: "
  | notAToken => "expected [text, tag] or \x7b\"text\", \"tag\"\x7d"
  | missingText => "missing text"
  | missingTag text => "token '" ++ text ++ "' has no tag"
  | emptyText => "token has no text"

/-- A fault and the place of the word among the words of the sentence, counted from 0. -/
structure MalformedInput where
  index : Nat
  fault : InputFault
deriving DecidableEq

def MalformedInput.message (error : MalformedInput) : String :=
  "Malformed input at token " ++ toString (error.index + 1) ++ ": " ++ error.fault.reason

end ShallowParse
