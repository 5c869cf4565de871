/-
This file defines values of the JSON data format.
-/

namespace ShallowParse

inductive JsonValue where
  | null
  | bool (value : Bool)
  /-- A number as it was written. -/
  | number (literal : String)
  | string (value : String)
  | array (items : List JsonValue)
  /-- The fields in order. Of two fields with one name the later one counts. -/
  | object (fields : List (String × JsonValue))
deriving Inhabited

/-- The value of the last field with a name. -/
def JsonValue.lookup? (fields : List (String × JsonValue)) (name : String) : Option JsonValue :=
  (fields.reverse.find? fun field => field.1 == name).map Prod.snd

end ShallowParse
