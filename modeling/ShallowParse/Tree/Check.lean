/-
This file checks trees against expectations. A check that fails gives a message,
which says where in the tree it failed, what was found and what was expected.
-/

import ShallowParse.Tagged.Slashed
import ShallowParse.Text.Quoted

namespace ShallowParse

/-! ### Messages -/

/-- Two values that were expected to be equal. -/
def mismatch (left right : String) : String :=
  "\n  left: " ++ left ++ "\n right: " ++ right

/-- What two unequal values are, with or without a word on what they are. -/
def inequality (subject : Option String) (left right : String) : String :=
  let about := match subject with
    | some subject => ": " ++ subject
    | none => ""
  "assertion `left == right` failed" ++ about ++ mismatch left right

/-- The message if two values are not equal. -/
def unequal? {Value : Type} [DecidableEq Value] (write : Value → String)
    (subject : Option String) (left right : Value) : Option String :=
  if left = right then none else some (inequality subject (write left) (write right))

/-- A token with its parts between quotes. -/
def Token.quoted (token : Token) : String :=
  "Token \x7b text: " ++ Text.quoted token.text ++ ", tag: " ++ Text.quoted token.tag ++ " \x7d"

/-- The text and the tag of a token as a pair. -/
def Token.quotedPair (token : Token) : String :=
  "(" ++ Text.quoted token.text ++ ", " ++ Text.quoted token.tag ++ ")"

def quotedTexts (texts : List String) : String :=
  Text.bracketed (texts.map Text.quoted)

/-! ### Nodes -/

/-- What a node is expected to be. -/
inductive NodeCheck where
  | phrase (label : String)
  | leaf (token : Token)
  | tags (tags : List String)
  | childCount (count : Nat)
  | child (index : Nat) (checks : List NodeCheck)
deriving Inhabited

/-- The place of a child, given the place of its parent if that is not the root. -/
def childPlace (parent : Option String) (index : Nat) : String :=
  let child := "children[" ++ toString index ++ "]"
  match parent with
  | some place => place ++ "." ++ child
  | none => child

namespace Node

def phraseFailure? (place label : String) : Node → Option String
  | phrase found _ =>
    unequal? Text.quoted
      (some (place ++ ": expected chunk " ++ label ++ ", found chunk " ++ found)) found label
  | leaf token => some (place ++ ": expected chunk " ++ label ++ ", found leaf " ++ token.written)

def leafFailure? (place : String) (expected : Token) : Node → Option String
  | leaf token => unequal? Token.quotedPair (some (place ++ ": leaf mismatch")) token expected
  | phrase label children =>
    some (place ++ ": expected leaf " ++ expected.written ++ ", found " ++
      (phrase label children).shape)

def tagsFailure? (place : String) (expected : List String) (node : Node) : Option String :=
  unequal? quotedTexts (some (place ++ ": leaf tags differ")) (node.leaves.map Token.tag) expected

def childCountFailure? (place : String) (expected : Nat) (node : Node) : Option String :=
  unequal? toString
    (some (place ++ ": expected " ++ toString expected ++ " children, node is " ++ node.shape))
    node.children.length expected

mutual

/-- The message of a check that fails for the node at a place. -/
def failure? (place : String) (node : Node) : NodeCheck → Option String
  | .phrase label => node.phraseFailure? place label
  | .leaf token => node.leafFailure? place token
  | .tags tags => node.tagsFailure? place tags
  | .childCount count => node.childCountFailure? place count
  | .child index checks =>
    match node.children[index]? with
    | some child => firstFailure? (childPlace (some place) index) child checks
    | none =>
      some (place ++ ": child index " ++ toString index ++ " out of bounds, node is " ++
        node.shape)

/-- The message of the first check that fails. -/
def firstFailure? (place : String) (node : Node) : List NodeCheck → Option String
  | [] => none
  | check :: checks => (failure? place node check).or (firstFailure? place node checks)

end

end Node

/-! ### Trees -/

/-- What a tree is expected to be. -/
inductive TreeCheck where
  | label (label : String)
  | childCount (count : Nat)
  | leaves (tokens : List Token)
  | shape (shape : String)
  | child (index : Nat) (checks : List NodeCheck)

/-- The message of a check that fails. -/
def Tree.failure? (tree : Tree) : TreeCheck → Option String
  | .label label =>
    unequal? Text.quoted
      (some ("Expected root label " ++ label ++ ", tree is " ++ tree.shape)) tree.label label
  | .childCount count =>
    unequal? toString
      (some ("Expected " ++ toString count ++ " top-level nodes, tree is " ++ tree.shape))
      tree.children.length count
  | .leaves tokens =>
    unequal? (fun tokens => Text.bracketed (tokens.map Token.quoted))
      (some "Leaves differ from input") tree.leaves tokens
  | .shape shape => unequal? Text.quoted none tree.shape shape
  | .child index checks =>
    match tree.children[index]? with
    | some child => child.firstFailure? (childPlace none index) checks
    | none =>
      some ("Child index " ++ toString index ++ " out of bounds, tree is " ++ tree.shape)

/-- The words of a line that is expected to be well formed, or the message that it is not. -/
def Token.ofExpectedLine (line : String) : Except String (List Token) :=
  (Token.ofLine line).mapError fun error =>
    "invalid tagged test input " ++ Text.quoted line ++ ": " ++ error.message

end ShallowParse
