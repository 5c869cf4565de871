/-
This file defines phrase trees. A tree is a labelled root whose children are
nodes in the order of the sentence. A node is a word of the sentence with its
tag, or a phrase: a label over nodes.
-/

namespace ShallowParse

/-- A word and its tag. -/
structure Token where
  text : String
  tag : String
deriving DecidableEq, Inhabited

namespace Token

/-- A word and its tag with a slash between them. -/
def written (token : Token) : String :=
  token.text ++ "/" ++ token.tag

instance : ToString Token := ⟨written⟩

end Token

inductive Node where
  | leaf (token : Token)
  | phrase (label : String) (children : List Node)
deriving Inhabited

structure Tree where
  label : String
  children : List Node
deriving Inhabited

/-- The label of the root where no other is chosen. -/
def Tree.defaultLabel : String := "S"

/-! ### Nodes -/

namespace Node

/-- What a rule sees of a node: the tag of a word, the label of a phrase. -/
def symbol : Node → String
  | leaf token => token.tag
  | phrase label _ => label

def isLeaf : Node → Bool
  | leaf _ => true
  | phrase _ _ => false

/-- The children of a phrase; a word has none. -/
def children : Node → List Node
  | leaf _ => []
  | phrase _ children => children

mutual

/-- The words below a node, in order. -/
def leaves : Node → List Token
  | leaf token => [token]
  | phrase _ children => leavesOfAll children

def leavesOfAll : List Node → List Token
  | [] => []
  | node :: nodes => leaves node ++ leavesOfAll nodes

end

mutual

/-- The number of words below a node. -/
def leafCount : Node → Nat
  | leaf _ => 1
  | phrase _ children => leafCountOfAll children

def leafCountOfAll : List Node → Nat
  | [] => 0
  | node :: nodes => leafCount node + leafCountOfAll nodes

end

mutual

/-- The number of nodes, the node itself included. -/
def size : Node → Nat
  | leaf _ => 1
  | phrase _ children => sizeOfAll children + 1

def sizeOfAll : List Node → Nat
  | [] => 0
  | node :: nodes => size node + sizeOfAll nodes

end

mutual

/-- A node on one line, phrases between parentheses after their labels. -/
def written : Node → String
  | leaf token => token.written
  | phrase label children => "(" ++ label ++ writtenAll children ++ ")"

def writtenAll : List Node → String
  | [] => ""
  | node :: nodes => " " ++ written node ++ writtenAll nodes

end

mutual

/-- The labels and tags of a node without its words, as in `NP[DT NN]`. -/
def shape : Node → String
  | leaf token => token.tag
  | phrase label children => label ++ "[" ++ shapesOfAll children ++ "]"

def shapesOfAll : List Node → String
  | [] => ""
  | [node] => shape node
  | node :: nodes => shape node ++ " " ++ shapesOfAll nodes

end

/-- The texts of words with single spaces between them. -/
def joinedText (tokens : List Token) : String :=
  " ".intercalate (tokens.map Token.text)

/-- The words below a node with single spaces between them. -/
def spanText (node : Node) : String :=
  joinedText node.leaves

end Node

/-! ### Trees -/

namespace Tree

/-- The root as a node. -/
def root (tree : Tree) : Node :=
  .phrase tree.label tree.children

def isEmpty (tree : Tree) : Bool :=
  tree.children.isEmpty

/-- The words of the sentence, in order. -/
def leaves (tree : Tree) : List Token :=
  tree.root.leaves

def leafCount (tree : Tree) : Nat :=
  tree.root.leafCount

/-- A tree on one line. -/
def written (tree : Tree) : String :=
  tree.root.written

instance : ToString Tree := ⟨written⟩

/-- The labels and tags of a tree without its words. -/
def shape (tree : Tree) : String :=
  tree.root.shape

end Tree

end ShallowParse
