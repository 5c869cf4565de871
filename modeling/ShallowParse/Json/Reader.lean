/-
This file reads JSON texts. The reader goes through the lexemes once and keeps
the arrays and objects that are open. They may be nested only to a certain depth.
-/

import ShallowParse.Json
import ShallowParse.Json.Lexeme

namespace ShallowParse

/-! ### Values being read -/

/-- An open array with its items, or an open object with its fields and the name of the field whose
value is being read. Both have the last first. -/
inductive OpenJson where
  | array (items : List JsonValue)
  | object (fields : List (String × JsonValue)) (name : String)

/-- What must come next. -/
inductive JsonExpectation where
  | value
  | valueOrClose
  | nameOrClose (fields : List (String × JsonValue))
  | name (fields : List (String × JsonValue))
  | colon (fields : List (String × JsonValue)) (name : String)
  | commaOrClose
  | nothing (value : JsonValue)

structure JsonReader where
  waiting : List OpenJson
  expected : JsonExpectation

namespace JsonReader

def start : JsonReader := ⟨[], .value⟩

/-- Arrays and objects may not be nested this deep. -/
def depthLimit : Nat := 128

/-- A value is complete and goes to the innermost open array or object. -/
def complete (value : JsonValue) : List OpenJson → JsonReader
  | [] => ⟨[], .nothing value⟩
  | .array items :: others => ⟨.array (value :: items) :: others, .commaOrClose⟩
  | .object fields name :: others => ⟨.object ((name, value) :: fields) "" :: others, .commaOrClose⟩

/-- An array or an object opens. -/
def opened? (waiting : List OpenJson) (reader : JsonReader) : Option JsonReader :=
  if waiting.length + 1 < depthLimit then some reader else none

/-- A value begins. An object waits for its first name outside the list of what is open. -/
def beginValue? (waiting : List OpenJson) : JsonLexeme → Option JsonReader
  | .openBracket => opened? waiting ⟨.array [] :: waiting, .valueOrClose⟩
  | .openBrace => opened? waiting ⟨waiting, .nameOrClose []⟩
  | .null => some (complete .null waiting)
  | .bool value => some (complete (.bool value) waiting)
  | .number literal => some (complete (.number literal) waiting)
  | .string value => some (complete (.string value) waiting)
  | _ => none

/-- The reader after one more lexeme. -/
def next? (reader : JsonReader) (lexeme : JsonLexeme) : Option JsonReader :=
  match reader.expected, reader.waiting, lexeme with
  | .valueOrClose, .array [] :: others, .closeBracket => some (complete (.array []) others)
  | .valueOrClose, waiting, lexeme => beginValue? waiting lexeme
  | .value, waiting, lexeme => beginValue? waiting lexeme
  | .nameOrClose _, waiting, .closeBrace => some (complete (.object []) waiting)
  | .nameOrClose fields, waiting, .string name => some ⟨waiting, .colon fields name⟩
  | .name fields, waiting, .string name => some ⟨waiting, .colon fields name⟩
  | .colon fields name, waiting, .colon => some ⟨.object fields name :: waiting, .value⟩
  | .commaOrClose, .array items :: others, .comma => some ⟨.array items :: others, .value⟩
  | .commaOrClose, .array items :: others, .closeBracket =>
    some (complete (.array items.reverse) others)
  | .commaOrClose, .object fields _ :: others, .comma => some ⟨others, .name fields⟩
  | .commaOrClose, .object fields _ :: others, .closeBrace =>
    some (complete (.object fields.reverse) others)
  | _, _, _ => none

/-- Reads one value to its end. -/
def read? (reader : JsonReader) : List JsonLexeme → Option JsonValue
  | [] =>
    match reader.expected with
    | .nothing value => some value
    | _ => none
  | lexeme :: rest => (reader.next? lexeme).bind fun reader => reader.read? rest

end JsonReader

/-- The value that a JSON text holds. -/
def JsonValue.ofText? (text : String) : Option JsonValue :=
  (JsonLexeme.ofChars? 0 text.toList).bind JsonReader.start.read?

end ShallowParse
