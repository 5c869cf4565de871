/-
This file gives trees as JSON values and reads them back.

A word is an object with the kind `leaf`, a phrase one with the kind `chunk`, and
the root an object without a kind. On reading, fields with other names are
ignored, an array may stand for an object if it holds the values of the fields in
their order, and below the first level a kind may also be given by its number.
-/

import ShallowParse.Json
import ShallowParse.Tree

namespace ShallowParse

/-! ### Writing -/

namespace Node

mutual

def toJson : Node → JsonValue
  | leaf token =>
    .object [("kind", .string "leaf"), ("text", .string token.text), ("tag", .string token.tag)]
  | phrase label children =>
    .object [("kind", .string "chunk"), ("label", .string label),
      ("children", .array (allToJson children))]

def allToJson : List Node → List JsonValue
  | [] => []
  | node :: nodes => toJson node :: allToJson nodes

end

end Node

def Tree.toJson (tree : Tree) : JsonValue :=
  .object [("label", .string tree.label), ("children", .array (Node.allToJson tree.children))]

/-! ### Reading -/

/-- The values of two fields of an object, or of an array that stands for it. -/
def JsonValue.pair? (first second : String) : JsonValue → Option (JsonValue × JsonValue)
  | .array [left, right] => some (left, right)
  | .object fields =>
    match JsonValue.lookup? fields first, JsonValue.lookup? fields second with
    | some left, some right => some (left, right)
    | _, _ => none
  | _ => none

/-- The kind of a node and the value that holds the rest of it. -/
def JsonValue.kinded? : JsonValue → Option (JsonValue × JsonValue)
  | .array (kind :: rest) => some (kind, .array rest)
  | .object fields => (JsonValue.lookup? fields "kind").map (·, .object fields)
  | _ => none

/-- Whether a kind is the named one, or its number where numbers are taken. -/
def JsonValue.isKind (takesNumbers : Bool) (name literal : String) : JsonValue → Bool
  | .string given => given == name
  | .number given => takesNumbers && given == literal
  | _ => false

namespace Node

mutual

/-- Reads a node in which phrases are nested at most `depth` deep. -/
def ofJson? : Nat → Bool → JsonValue → Option Node
  | 0, _, _ => none
  | depth + 1, takesNumbers, value => do
    let (kind, rest) ← value.kinded?
    if kind.isKind takesNumbers "leaf" "0" then
      match rest.pair? "text" "tag" with
      | some (.string text, .string tag) => return leaf ⟨text, tag⟩
      | _ => none
    else if kind.isKind takesNumbers "chunk" "1" then
      match rest.pair? "label" "children" with
      | some (.string label, .array items) => return phrase label (← allOfJson? depth true items)
      | _ => none
    else none

def allOfJson? : Nat → Bool → List JsonValue → Option (List Node)
  | _, _, [] => some []
  | depth, takesNumbers, item :: items => do
    let node ← ofJson? depth takesNumbers item
    let nodes ← allOfJson? depth takesNumbers items
    return node :: nodes

end

end Node

mutual

/-- The depth of a value. -/
def JsonValue.depth : JsonValue → Nat
  | .array items => JsonValue.depthOfAll items + 1
  | .object fields => JsonValue.depthOfFields fields + 1
  | _ => 1

def JsonValue.depthOfAll : List JsonValue → Nat
  | [] => 0
  | item :: items => max (JsonValue.depth item) (JsonValue.depthOfAll items)

def JsonValue.depthOfFields : List (String × JsonValue) → Nat
  | [] => 0
  | (_, value) :: fields => max (JsonValue.depth value) (JsonValue.depthOfFields fields)

end

/-- Reads a tree. -/
def Tree.ofJson? (value : JsonValue) : Option Tree :=
  match value.pair? "label" "children" with
  | some (.string label, .array items) =>
    (Node.allOfJson? value.depth false items).map fun children => ⟨label, children⟩
  | _ => none

end ShallowParse
