/-
This file puts regular expressions together: one after the other, as
alternatives, and repeated.

A row inside a row is dissolved, and so are alternatives inside alternatives.
Alternatives that are all rows and begin alike are factored: the common beginning
comes first and the alternatives of the rests follow. Where the beginning can
match in several ways, factoring settles on the preferred way that any rest can
follow, instead of trying every way with the first rest before the second rest is
tried. Characters that follow one another count as one piece of a row here.
-/

import ShallowParse.Regex

namespace ShallowParse.Regex

/-! ### One after the other -/

/-- Two expressions one after the other, in one row. -/
def append : Regex → Regex → Regex
  | empty, second => second
  | seq first rest, second => seq first (rest.append second)
  | first, empty => first
  | first, second => seq first second

/-- The expressions one after the other, in one row. -/
def inOrder : List Regex → Regex
  | [] => empty
  | first :: others => first.append (inOrder others)

/-- The characters of a text one after the other. -/
def literal (text : List Char) : Regex :=
  inOrder (text.map char)

/-- The items of a row. An expression that is no row is its only item. -/
def items : Regex → List Regex
  | empty => []
  | seq first rest => first :: rest.items
  | item => [item]

/-- The character that an expression for one character wants. -/
def wanted? : Regex → Option Char
  | char wanted => some wanted
  | _ => none

def isChar (regex : Regex) : Bool := regex.wanted?.isSome

/-- An item before the pieces of a row. -/
def addPiece (item : Regex) : List (List Regex) → List (List Regex)
  | (next :: others) :: pieces =>
    if item.isChar && next.isChar then (item :: next :: others) :: pieces
    else [item] :: (next :: others) :: pieces
  | pieces => [item] :: pieces

/-- The pieces of a row: runs of characters, and single other items. -/
def pieces (row : Regex) : List (List Regex) :=
  row.items.foldr addPiece []

/-- The row of some pieces. -/
def ofPieces (pieces : List (List Regex)) : Regex :=
  inOrder pieces.flatten

/-! ### Alternatives -/

/-- The alternatives of an expression. -/
def branches : Regex → List Regex
  | alt first second => first.branches ++ second.branches
  | branch => [branch]

/-- The expressions as alternatives, each preferred to those after it. -/
def anyOf : List Regex → Regex
  | [] => empty
  | [only] => only
  | first :: others => alt first (anyOf others)

/-- The longest list that begins both lists. -/
def commonBeginning : List (List Regex) → List (List Regex) → List (List Regex)
  | left :: lefts, right :: rights =>
    if left = right then left :: commonBeginning lefts rights else []
  | _, _ => []

/-- What several lists all begin with. -/
def sharedBeginning : List (List (List Regex)) → List (List Regex)
  | [] => []
  | first :: others => others.foldl commonBeginning first

/-- The alternatives of rows after their common beginning, which has the given length. -/
def rests (length : Nat) (rows : List (List (List Regex))) : List Regex :=
  rows.flatMap fun row => (ofPieces (row.drop length)).branches

/-- The expressions as alternatives in one list, factored where all of them are rows. Without any
there is only the empty match. -/
def either (alternatives : List Regex) : Regex :=
  let flat := alternatives.flatMap branches
  let rows := flat.map pieces
  let beginning := sharedBeginning rows
  if rows.all (2 ≤ ·.length) && !beginning.isEmpty then
    (ofPieces beginning).append (anyOf (rests beginning.length rows))
  else anyOf flat

/-! ### Repetitions -/

/-- Copies of a body between bounds. One copy is the body itself, no copy is the empty match, and a
second copy of the empty match adds nothing. A loop over a body that can match the empty text is
entered by way of its body, so that a first copy which matches nothing counts as a copy. -/
def repetition (body : Regex) (least : Nat) (most : Option Nat) : Regex :=
  let least := if body.matchesOnlyEmpty then min least 1 else least
  let most := if body.matchesOnlyEmpty then some (min (most.getD 1) 1) else most
  if least = 0 ∧ most = some 0 then empty
  else if least = 1 ∧ most = some 1 then body
  else if least = 0 ∧ most = none ∧ !body.isNullable then star body
  else repeated body least most

end ShallowParse.Regex
