/-
This file says how many bytes an expression takes once it is made ready for
matching.

An expression becomes a graph of states. A state waits for a byte, or offers
several ways on, or only joins ways. There are two graphs, one for going through a
text forwards and one for going through it backwards, and the greater one counts.
Copies of a body stand in the graph one after the other, each with states of its
own. Alternatives that are all plain texts share the states for what they begin
with, in the direction of the graph.
-/

import ShallowParse.Regex.Assembly

namespace ShallowParse.Regex

/-- The way in which a text is gone through. -/
inductive Direction where
  | forward
  | backward
deriving DecidableEq

/-! ### States -/

/-- The size of a state that joins ways, waits for one range of bytes or marks a place. -/
def stateSize : Nat := 32

/-- The size of a state that offers so many ways on. -/
def choiceSize (ways : Nat) : Nat := stateSize + 4 * ways

/-- The size of a state that has a way on for each of so many ranges of bytes. -/
def tableSize (ranges : Nat) : Nat := stateSize + 8 * ranges

/-- The size of any character but one of ASCII. The bytes of such characters have ten forms.
Forwards the forms share the states for the bytes that they end with: seven follow the first state.
Backwards they share the states for their last bytes only. -/
def anyOtherSize : Direction → Nat
  | .forward => tableSize 10 + 7 * tableSize 1 + stateSize
  | .backward => choiceSize 10 + 28 * stateSize + stateSize

/-- The size of what surrounds an expression. Forwards these are the entrance, the test for the
beginning of the text, marks for both ends of the match, and acceptance. Backwards a loop over any
bytes takes the place of the entrance and the marks. -/
def surroundingSize : Direction → Nat
  | .forward => 5 * stateSize
  | .backward => choiceSize 2 + tableSize 1 + 3 * stateSize

/-! ### Plain texts -/

/-- The text that is the only match of an expression that is a row of characters. -/
def plainText? (regex : Regex) : Option (List Char) :=
  match regex.items with
  | [] => none
  | items => items.mapM wanted?

/-- The bytes of a text in the order in which they are met. -/
def bytesMet (direction : Direction) (text : List Char) : List UInt8 :=
  let bytes := text.flatMap String.utf8EncodeChar
  match direction with
  | .forward => bytes
  | .backward => bytes.reverse

def total (sizes : List Nat) : Nat :=
  sizes.foldl (· + ·) 0

/-- What follows a byte in the rows that begin with it. -/
def restsAfter (byte : UInt8) (rows : List (List UInt8)) : List (List UInt8) :=
  rows.filterMap fun row => if row.head? = some byte then some row.tail else none

/-- The ways on to the end of all texts at a place where some rows end. Before any row goes on from
there, one such way is enough. -/
def waysToEnd (rows : List (List UInt8)) : Nat :=
  let leading := rows.takeWhile List.isEmpty
  min leading.length 1 + (rows.drop leading.length).countP List.isEmpty

/-- The runs of rows that go on, between those that end. A row that ends is preferred to all rows
after it, so only the rows of one run can share states. -/
def runsGoingOn (rows : List (List UInt8)) : List (List (List UInt8)) :=
  (rows.splitBy fun row next => !row.isEmpty && !next.isEmpty).filter fun run =>
    run.any (!·.isEmpty)

/-- The size of the states for rows of bytes from one place on, given a bound for their length. All
ends lead to one state, which is not counted here. -/
def rowsSize : Nat → List (List UInt8) → Nat
  | 0, _ => 0
  | bound + 1, rows =>
    let runs := runsGoingOn rows
    let runSize (run : List (List UInt8)) : Nat :=
      let bytes := (run.filterMap List.head?).eraseDups
      (if bytes.length = 1 then stateSize else tableSize bytes.length) +
        total (bytes.map fun byte => rowsSize bound (restsAfter byte run))
    if runs.isEmpty then 0
    else choiceSize (runs.length + waysToEnd rows) + total (runs.map runSize)

/-- The size of alternatives that are plain texts. -/
def textsSize (direction : Direction) (texts : List (List Char)) : Nat :=
  let rows := texts.map (bytesMet direction)
  stateSize + rowsSize ((rows.map List.length).foldl max 0) rows

/-! ### Expressions -/

/-- The size of copies of a body, given the size of one. Copies that need not be there are each
preceded by a choice, and the last copy of an endless row is followed by one. A loop that need not
be entered and whose body can match the empty text has two choices. -/
def copiesSize (body least : Nat) : Option Nat → Nat
  | none => if least = 0 then body + 2 * choiceSize 2 + stateSize else least * body + choiceSize 2
  | some most =>
    if least = most then least * body
    else if least = 0 ∧ most = 1 then body + choiceSize 2 + stateSize
    else
      (if least = 0 then stateSize else least * body) + (most - least) * (body + choiceSize 2) +
        stateSize

/-- The size of an expression. That of a branch of larger alternatives includes the way to it, and
alternatives that are such branches have no states of their own. -/
def sizeAs (direction : Direction) (isBranch : Bool) : Regex → Nat
  | alt first second =>
    let branches := sizeAs direction true first + sizeAs direction true second
    if isBranch then branches
    else
      match (alt first second).branches.mapM plainText? with
      | some texts => textsSize direction texts
      | none => choiceSize 0 + branches + stateSize
  | empty => wayTo + stateSize
  | char wanted => wayTo + wanted.utf8Size * stateSize
  | otherThan _ => wayTo + anyOtherSize direction
  | seq first second => wayTo + sizeAs direction false first + sizeAs direction false second
  | star body => wayTo + sizeAs direction false body + choiceSize 2
  | repeated body least most => wayTo + copiesSize (sizeAs direction false body) least most
where
  wayTo : Nat := if isBranch then 4 else 0

/-- The size of the graph of an expression. The empty row takes nothing. -/
def graphSize (direction : Direction) (regex : Regex) : Nat :=
  surroundingSize direction + if regex = empty then 0 else sizeAs direction false regex

/-- The size of an expression made ready for matching. -/
def size (regex : Regex) : Nat :=
  max (regex.graphSize .forward) (regex.graphSize .backward)

end ShallowParse.Regex
