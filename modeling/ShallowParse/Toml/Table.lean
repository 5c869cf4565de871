/-
This file defines the tables of a TOML text while it is being read. How a table
came to be decides what may still be added to it: a table with a header of its own
is closed to keys with points and to further headers, one that is only passed
through by other headers can still get a header, and one made by a key with points
can get further such keys. Nothing can be added to a table in braces that is
complete.

A table whose first key has a certain name is no table but stands for the date in
the string under that key.
-/

import ShallowParse.Config.Value
import ShallowParse.Toml.Date

namespace ShallowParse.Toml

/-! ### Tables -/

/-- How a table came to be. -/
inductive Origin where
  /-- By its own header, or as the whole text. -/
  | header
  /-- By the header of a table inside it. -/
  | passage
  /-- By a key with points. -/
  | dottedKey
deriving DecidableEq

inductive Item where
  /-- A text between quotes. -/
  | string (text : String)
  /-- What a word stands for. -/
  | scalar (value : ConfigValue)
  | list (items : List Item)
  /-- A table in braces that is complete. -/
  | braces (fields : List (String × Item))
  | table (origin : Origin) (fields : List (String × Item))
  /-- A list of tables, each with a header of its own. The last is the one being read, those
  before it come last first. -/
  | tables (earlier : List (List (String × Item))) (last : List (String × Item))

structure Table where
  origin : Origin
  fields : List (String × Item)

namespace Table

def empty (origin : Origin) : Table := ⟨origin, []⟩

def toItem (table : Table) : Item :=
  .table table.origin table.fields

/-! ### Changes -/

/-- Changes what stands under a name. -/
def updateField? (name : String) (change : Option Item → Option Item) :
    List (String × Item) → Option (List (String × Item))
  | [] => (change none).map fun item => [(name, item)]
  | (other, item) :: rest =>
    if other = name then (change (some item)).map fun item => (name, item) :: rest
    else (updateField? name change rest).map ((other, item) :: ·)

def update? (table : Table) (name : String) (change : Option Item → Option Item) :
    Option Table :=
  (updateField? name change table.fields).map fun fields => { table with fields := fields }

/-- Changes the table that a path leads to. Tables that are missing on the way are made with the
given origin. Keys with points do not lead into a table with a header. -/
def within? (origin : Origin) (change : Table → Option Table) : List String → Table → Option Table
  | [], table => change table
  | name :: path, table =>
    table.update? name fun
      | none => (within? origin change path (empty origin)).map toItem
      | some (.table found fields) =>
        if origin = .dottedKey ∧ found = .header then none
        else (within? origin change path ⟨found, fields⟩).map toItem
      | some (.tables earlier last) =>
        (within? origin change path ⟨.header, last⟩).map fun table => .tables earlier table.fields
      | _ => none

/-- Puts an item under a key, where nothing may stand yet. The last name of a key with points goes
only into a table made by such keys, and any other key into no such table. -/
def assign? (key : List String) (item : Item) (table : Table) : Option Table :=
  match key.getLast? with
  | none => none
  | some name =>
    let path := key.dropLast
    table.within? .dottedKey
      (fun inner =>
        if inner.origin = .dottedKey ↔ path = [] then none
        else inner.update? name fun found => if found.isNone then some item else none)
      path

/-- Gives a table inside another one its header, with which it becomes the last of the fields. -/
def openField? (name : String) (outer : Table) : Option Table :=
  let others := outer.fields.filter fun field => field.1 != name
  match outer.fields.lookup name with
  | none => some { outer with fields := others ++ [(name, .table .header [])] }
  | some (.table .passage fields) =>
    some { outer with fields := others ++ [(name, .table .header fields)] }
  | _ => none

/-- Gives a table its header. -/
def openTable? (header : List String) (table : Table) : Option Table :=
  match header.getLast? with
  | none => none
  | some name => table.within? .passage (openField? name) header.dropLast

/-- Begins a further table of a list of tables. -/
def openElement? (header : List String) (table : Table) : Option Table :=
  match header.getLast? with
  | none => none
  | some name =>
    table.within? .passage
      (fun outer => outer.update? name fun
        | none => some (.tables [] [])
        | some (.tables earlier last) => some (.tables (last :: earlier) [])
        | _ => none)
      header.dropLast

end Table

/-! ### Values -/

/-- The name of the first key of a table that stands for a date. -/
def dateKey : String := "$__toml_private_datetime"

/-- The date that a string holds. -/
def dateOf? : Item → Option ConfigValue
  | .string text =>
    (dateTime? quotedLimits text.toList).map fun date => .text (String.ofList date)
  | _ => none

mutual

/-- An item as a value of a configuration. -/
def Item.toValue? : Item → Option ConfigValue
  | .string text => some (.text text)
  | .scalar value => some value
  | .list items => (Item.values? items).map ConfigValue.list
  | .braces fields => Item.tableValue? fields
  | .table _ fields => Item.tableValue? fields
  | .tables earlier last => do
    let earlier ← Item.tableValues? earlier
    let last ← Item.tableValue? last
    return .list (earlier.reverse ++ [last])

def Item.values? : List Item → Option (List ConfigValue)
  | [] => some []
  | item :: items => do return (← Item.toValue? item) :: (← Item.values? items)

/-- The value of a table with these fields. -/
def Item.tableValue? : List (String × Item) → Option ConfigValue
  | [] => some .emptyTable
  | (name, item) :: fields =>
    if name = dateKey then dateOf? item
    else do
      let value ← Item.toValue? item
      return .table ((name, value) :: (← Item.fieldValues? fields))

def Item.fieldValues? : List (String × Item) → Option (List (String × ConfigValue))
  | [] => some []
  | (name, item) :: fields => do
    let value ← Item.toValue? item
    return (name, value) :: (← Item.fieldValues? fields)

def Item.tableValues? : List (List (String × Item)) → Option (List ConfigValue)
  | [] => some []
  | fields :: others => do
    return (← Item.tableValue? fields) :: (← Item.tableValues? others)

end

end ShallowParse.Toml
