/-
This file draws a tree over several lines: the label of the root, then one line
for each node below it, each node before the nodes below it. Connectors lead from
a node to its children. The line of a phrase shows the beginning of its words.
-/

import ShallowParse.Tree

namespace ShallowParse

namespace Node

/-! ### The text of a line -/

/-- The greatest number of characters of words that are shown in full. -/
def shownLength : Nat := 40

/-- The beginning of a text, followed by dots if there is more of it. -/
def shown (text : String) : String :=
  if shownLength < text.length then String.ofList (text.toList.take shownLength) ++ "..."
  else text

/-- What the line of a node says of it. -/
def outlineText : Node → String
  | leaf token => token.written
  | phrase label children => label ++ ": " ++ shown (joinedText (leavesOfAll children))

/-! ### Lines -/

/-- What leads to a node from its parent. -/
def connector (isLast : Bool) : String :=
  if isLast then "└─ " else "├─ "

/-- What the lines below a node show of the line from its parent to the siblings after it. -/
def continuation (isLast : Bool) : String :=
  if isLast then "  " else "│ "

mutual

/-- The line of a node and the lines of the nodes below it, all after a margin. -/
def outline (margin : String) (isLast : Bool) : Node → String
  | leaf token => margin ++ connector isLast ++ outlineText (leaf token) ++ "\n"
  | phrase label children =>
    margin ++ connector isLast ++ outlineText (phrase label children) ++ "\n" ++
      outlineOfAll (margin ++ continuation isLast) children

def outlineOfAll (margin : String) : List Node → String
  | [] => ""
  | node :: nodes => outline margin nodes.isEmpty node ++ outlineOfAll margin nodes

end

end Node

/-- A tree over several lines. -/
def Tree.outline (tree : Tree) : String :=
  tree.label ++ "\n" ++ Node.outlineOfAll "" tree.children

end ShallowParse
