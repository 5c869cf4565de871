/-
This file defines the values of a configuration and how one is laid over another:
tables are combined name by name, and any other value takes the place of what it
is laid over. Names that differ only in case are the same name, which a
configuration holds in small letters.
-/

import ShallowParse.Decimal.Double

namespace ShallowParse

inductive ConfigValue where
  | null
  | bool (value : Bool)
  | integer (value : Int)
  | float (value : Double)
  | text (value : String)
  | list (items : List ConfigValue)
  /-- Values with different names. -/
  | table (entries : List (String × ConfigValue))
deriving Inhabited

namespace ConfigValue

def emptyTable : ConfigValue := table []

/-- A name as a configuration holds it. -/
def nameOf (text : String) : String :=
  String.ofList (text.toList.map Char.toLower)

/-- The entries of a table; another value has none. -/
def entries : ConfigValue → List (String × ConfigValue)
  | table entries => entries
  | _ => []

/-- The items of a list; another value has none. -/
def items : ConfigValue → List ConfigValue
  | list items => items
  | _ => []

/-- Puts a value under a name, in place of any other value there. -/
def put (name : String) (value : ConfigValue) :
    List (String × ConfigValue) → List (String × ConfigValue)
  | [] => [(name, value)]
  | (other, old) :: rest =>
    if other = name then (name, value) :: rest else (other, old) :: put name value rest

mutual

/-- What a value becomes when it is laid over an old one, if there is one. -/
def overlay (old : Option ConfigValue) : ConfigValue → ConfigValue
  | table entries => overlayAll (old.getD emptyTable) entries
  | value => value

/-- Lays entries over a value, which becomes a table if there are any. -/
def overlayAll (old : ConfigValue) : List (String × ConfigValue) → ConfigValue
  | [] => old
  | (name, value) :: rest =>
    let name := nameOf name
    overlayAll (table (put name (overlay (old.entries.lookup name) value) old.entries)) rest

end

end ConfigValue

end ShallowParse
