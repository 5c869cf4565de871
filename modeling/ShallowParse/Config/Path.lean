/-
This file defines paths into a configuration, such as `grammar.rules[0]`: names
after points, and places in lists between square brackets. A negative place counts
from the end.
-/

import ShallowParse.Config.Value
import ShallowParse.Decimal

namespace ShallowParse

inductive PathStep where
  | field (name : String)
  | item (index : Int)
deriving DecidableEq

/-- A path from the whole configuration to a value. -/
abbrev ConfigPath := List PathStep

namespace ConfigPath

/-! ### Reading -/

/-- The characters of a name. -/
def isNameChar (char : Char) : Bool :=
  char.isAlphanum || [' ', '_', '-'].contains char

/-- What is being read: a name or a place with its characters last first, or what follows a
place. -/
inductive Reading where
  | name (chars : List Char)
  | index (chars : List Char)
  | afterIndex

def namedStep? (reversed : List Char) : Option PathStep :=
  if reversed.isEmpty then none
  else some (.field (ConfigValue.nameOf (String.ofList reversed.reverse)))

/-- The characters that may stand around a place. -/
def isIndexBlank (char : Char) : Bool :=
  [' ', '\t'].contains char

/-- The place that digits denote. A minus may precede them. -/
def index? : List Char → Option Int
  | '-' :: digits => (Text.nat? 10 digits).map fun number => -Int.ofNat number
  | digits => (Text.nat? 10 digits).map Int.ofNat

/-- The step to a place that is written with 64 bits. -/
def indexStep? (reversed : List Char) : Option PathStep := do
  let index ← index? ((reversed.dropWhile isIndexBlank).reverse.dropWhile isIndexBlank)
  if Decimal.isWord index then some (.item index) else none

/-- How reading goes on after a sign that ends a step. -/
def afterSign? : Char → Option Reading
  | '.' => some (.name [])
  | '[' => some (.index [])
  | _ => none

/-- The steps that the rest of a text spells. -/
def steps? : Reading → List Char → Option ConfigPath
  | .name chars, [] => (namedStep? chars).map ([·])
  | .name chars, char :: rest =>
    if isNameChar char then steps? (.name (char :: chars)) rest
    else do
      let step ← namedStep? chars
      let others ← steps? (← afterSign? char) rest
      return step :: others
  | .index _, [] => none
  | .index chars, char :: rest =>
    if char = ']' then do
      let step ← indexStep? chars
      let others ← steps? .afterIndex rest
      return step :: others
    else steps? (.index (char :: chars)) rest
  | .afterIndex, [] => some []
  | .afterIndex, char :: rest => (afterSign? char).bind (steps? · rest)

/-- Reads a path, which begins with a name. -/
def ofText? (text : String) : Option ConfigPath :=
  steps? (.name []) text.toList

/-! ### Setting -/

/-- The number of the item that a place means in a list of the given length. -/
def position (length : Nat) (index : Int) : Nat :=
  if 0 ≤ index then index.toNat else (length + index).toNat

/-- A list with a changed item. Where it is too short it is filled up with `null`. -/
def modifyItem (change : ConfigValue → ConfigValue) :
    Nat → List ConfigValue → List ConfigValue
  | 0, [] => [change .null]
  | 0, item :: items => change item :: items
  | index + 1, [] => .null :: modifyItem change index []
  | index + 1, item :: items => item :: modifyItem change index items

/-- Sets the value that a path leads to. Tables and lists are made where the path needs them, and a
table is laid over what it is set over. -/
def set (value : ConfigValue) : ConfigPath → ConfigValue → ConfigValue
  | [], _ => value
  | [.field name], old =>
    .table (ConfigValue.put name (value.overlay (old.entries.lookup name)) old.entries)
  | .field name :: path, old =>
    let inner := (old.entries.lookup name).getD .null
    .table (ConfigValue.put name (set value path inner) old.entries)
  | .item index :: path, old =>
    .list (modifyItem (set value path) (position old.items.length index) old.items)

end ConfigPath

end ShallowParse
