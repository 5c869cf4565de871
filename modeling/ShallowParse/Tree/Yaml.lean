/-
This file gives trees as YAML documents: the fields of a node one below the other,
and its children as a list that begins at the column of the fields.
-/

import ShallowParse.Tree
import ShallowParse.Yaml.Scalar

namespace ShallowParse

namespace Node

open Yaml

/-- A field with a string as its value, where fields begin at the given column. -/
def yamlField (column : Nat) (name : String) (value : String) : List Char :=
  name.toList ++ [':', ' '] ++ scalarLine (column + 2) value

/-- A list as the value of a field. -/
def yamlList (items : List Char) : List Char :=
  if items.isEmpty then "children: []\n".toList else "children:\n".toList ++ items

mutual

/-- The fields of a node, which begin at the given column. The first of them has no indentation,
since what stands before it reaches to that column. -/
def yaml (column : Nat) : Node → List Char
  | leaf token =>
    "kind: leaf\n".toList ++ spaces column ++ yamlField column "text" token.text ++
      spaces column ++ yamlField column "tag" token.tag
  | phrase label children =>
    "kind: chunk\n".toList ++ spaces column ++ yamlField column "label" label ++
      spaces column ++ yamlList (yamlItems column children)

/-- The items of a list whose dashes stand at the given column. -/
def yamlItems (column : Nat) : List Node → List Char
  | [] => []
  | node :: nodes =>
    spaces column ++ ['-', ' '] ++ yaml (column + 2) node ++ yamlItems column nodes

end

end Node

/-- A tree as a YAML document. -/
def Tree.toYaml (tree : Tree) : String :=
  String.ofList (Node.yamlField 0 "label" tree.label ++
    Node.yamlList (Node.yamlItems 0 tree.children))

end ShallowParse
