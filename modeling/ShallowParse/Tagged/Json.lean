/-
This file reads a tagged sentence from a JSON array. Each item is an array of the
text and the tag, or an object with the fields `text` and `tag`.
-/

import ShallowParse.Json.Reader
import ShallowParse.Tagged.Items

namespace ShallowParse

/-- A field that holds a text, or nothing where it is null or missing. The outer `none` stands for
a value of another kind. -/
def JsonValue.optionalText? (fields : List (String × JsonValue)) (name : String) :
    Option (Option String) :=
  match JsonValue.lookup? fields name with
  | none => some none
  | some .null => some none
  | some (.string text) => some (some text)
  | some _ => none

/-- The token with a text and a tag, either of which may be missing. -/
def Token.ofParts (text tag : Option String) : Except InputFault Token :=
  match text, tag with
  | none, _ => .error .missingText
  | some text, none => .error (.missingTag text)
  | some text, some tag => .ok ⟨text, tag⟩

/-- Reads one item. -/
def Token.ofJson : JsonValue → Except InputFault Token
  | .array [.string text, .string tag] => .ok ⟨text, tag⟩
  | .object fields =>
    match JsonValue.optionalText? fields "text", JsonValue.optionalText? fields "tag" with
    | some text, some tag => Token.ofParts text tag
    | _, _ => .error .notAToken
  | _ => .error .notAToken

/-- Reads a sentence from the text of a JSON array. -/
def Token.ofJsonText (text : String) : Except MalformedInput (List Token) :=
  match JsonValue.ofText? text with
  | some (.array items) => Token.allOf Token.ofJson 0 items
  | _ => .error ⟨0, .notAnArray⟩

end ShallowParse
