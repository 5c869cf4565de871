/-
This file proves that the JSON format loses nothing: a tree is read back from the text it
is written to, if the text is not nested too deep to be read at all. The value of a node
tells which kind of node it was, and its fields give its parts. The induction is on the
nodes, with a bound on the depth of the values that is large enough for all of them.
-/

import ShallowParse.Format
import ShallowParse.Proofs.Json.Reading

namespace ShallowParse

namespace Node

open JsonValue

/-! ### Values of nodes -/

mutual

theorem isNumberless_toJson (node : Node) : node.toJson.isNumberless = true := by
  match node with
  | leaf _ => rfl
  | phrase label children =>
    have ofChildren := areNumberless_allToJson children
    simp only [toJson, isNumberless, areFieldsNumberless, ofChildren, Bool.and_self]

theorem areNumberless_allToJson (nodes : List Node) :
    areNumberless (allToJson nodes) = true := by
  match nodes with
  | [] => rfl
  | node :: nodes =>
    rw [allToJson, areNumberless, isNumberless_toJson node, areNumberless_allToJson nodes]
    rfl

end

/-- Reading may go deeper into a phrase than into its children. -/
theorem depthOfAll_lt_depth (label : String) (children : List Node) :
    depthOfAll (allToJson children) + 1 < (phrase label children).toJson.depth := by
  simp only [toJson, JsonValue.depth, depthOfFields]
  omega

mutual

/-- A node is read back from its value. -/
theorem ofJson?_toJson (node : Node) {depth : Nat} (takesNumbers : Bool)
    (enough : node.toJson.depth ≤ depth) : ofJson? depth takesNumbers node.toJson = some node := by
  match node, depth with
  | leaf token, 0 => exact absurd enough (Nat.not_succ_le_zero _)
  | phrase label children, 0 => exact absurd enough (Nat.not_succ_le_zero _)
  | leaf token, depth + 1 => simp [ofJson?, toJson, kinded?, pair?, lookup?, isKind]
  | phrase label children, depth + 1 =>
    have isRoom := Nat.lt_of_lt_of_le (depthOfAll_lt_depth label children) enough
    have enoughBelow := Nat.le_of_succ_le_succ (Nat.le_of_lt isRoom)
    have ofChildren := allOfJson?_allToJson children true enoughBelow
    simp [ofJson?, toJson, kinded?, pair?, lookup?, isKind, ofChildren]

theorem allOfJson?_allToJson (nodes : List Node) {depth : Nat} (takesNumbers : Bool)
    (enough : depthOfAll (allToJson nodes) ≤ depth) :
    allOfJson? depth takesNumbers (allToJson nodes) = some nodes := by
  match nodes with
  | [] => rw [allToJson, allOfJson?]
  | node :: nodes =>
    obtain ⟨enoughFirst, enoughOthers⟩ := Nat.max_le.mp enough
    rw [allToJson, allOfJson?, ofJson?_toJson node takesNumbers enoughFirst,
      allOfJson?_allToJson nodes takesNumbers enoughOthers]
    rfl

end

end Node

namespace Tree

/-! ### Trees -/

theorem isNumberless_toJson (tree : Tree) : tree.toJson.isNumberless = true := by
  simp only [toJson, JsonValue.isNumberless, JsonValue.areFieldsNumberless,
    Node.areNumberless_allToJson, Bool.and_self]

/-- A tree is read back from its value. -/
theorem ofJson?_toJson (tree : Tree) : ofJson? tree.toJson = some tree := by
  have isRoom : JsonValue.depthOfAll (Node.allToJson tree.children) ≤ tree.toJson.depth := by
    simp only [toJson, JsonValue.depth, JsonValue.depthOfFields]
    omega
  have ofChildren := Node.allOfJson?_allToJson tree.children false isRoom
  have arePair : tree.toJson.pair? "label" "children" =
      some (.string tree.label, .array (Node.allToJson tree.children)) := by
    simp [toJson, JsonValue.pair?, JsonValue.lookup?]
  rw [ofJson?, arePair]
  dsimp only
  rw [ofChildren]
  rfl

/-- The JSON format loses nothing. Whatever the labels, texts and tags of a tree are, the text it
is written to is read as the same tree, unless arrays and objects are nested so deep in the text
that it cannot be read. -/
theorem json_loses_nothing (tree : Tree) :
    ∃ text, Format.json.write tree = .ok text ∧
      (JsonValue.ofText? text).bind ofJson? =
        if tree.toJson.nesting < JsonReader.depthLimit then some tree else none := by
  refine ⟨_, rfl, ?_⟩
  rw [JsonValue.ofText?_pretty tree.isNumberless_toJson]
  split
  · exact ofJson?_toJson tree
  · rfl

end Tree

end ShallowParse
