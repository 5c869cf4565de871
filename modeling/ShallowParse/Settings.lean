/-
This file defines the settings of the program and how they are put together: the
defaults, then files laid over them in turn, then single values. The result must
have a value of the right kind for every setting. Texts and truth values may be
given as other scalars that stand for them.
-/

import ShallowParse.Chunker
import ShallowParse.Config.Path
import ShallowParse.Toml.Reader

namespace ShallowParse

structure Settings where
  rootLabel : String
  /-- Rules in notation, each entry of one line or more. -/
  rules : List String
  format : String
  /-- Whether every phrase that a rule builds is reported. -/
  traces : Bool
  logLevel : String
deriving DecidableEq

/-! ### Errors -/

inductive SettingsError where
  | badPath (path : String)
  | missingFile (name : String)
  | unreadableFile
  /-- A value that is missing, or of a kind that cannot be used. -/
  | wrongShape
  /-- A scalar that does not stand for the text or truth value that is wanted, or no scalar at
  all. -/
  | wrongScalar
deriving DecidableEq

/-- What a message says of an error. The place of a fault in a file and the name of a setting with a
wrong value are left out. -/
def SettingsError.message : SettingsError → String
  | badPath path => "failed to parse the path \"" ++ path ++ "\""
  | missingFile name => "configuration file \"" ++ name ++ "\" not found"
  | unreadableFile => "configuration file is not valid TOML"
  | wrongShape => "a setting is missing or has a value of the wrong kind"
  | wrongScalar => "a setting has a value of the wrong type"

/-! ### Values of settings -/

namespace ConfigValue

def boolText (value : Bool) : String :=
  if value then "true" else "false"

def asText : ConfigValue → Except SettingsError String
  | text value => .ok value
  | bool value => .ok (boolText value)
  | integer value => .ok (toString value)
  | float value => .ok value.written
  | null | list _ | table _ => .error .wrongScalar

/-- The words for the truth values. -/
def wordAsBool (word : String) : Except SettingsError Bool :=
  let lower := String.ofList (word.toList.map Char.toLower)
  if ["1", "true", "on", "yes"].contains lower then .ok true
  else if ["0", "false", "off", "no"].contains lower then .ok false
  else .error .wrongScalar

def asBool : ConfigValue → Except SettingsError Bool
  | bool value => .ok value
  | integer value => .ok (value != 0)
  | float value => .ok !value.isZero
  | text value => wordAsBool value
  | null | list _ | table _ => .error .wrongScalar

def asTexts : ConfigValue → Except SettingsError (List String)
  | list items => items.mapM asText
  | _ => .error .wrongShape

/-- The value of a field of a section. A section is a table, or a list of the values of its fields
in order. -/
def field? (value : ConfigValue) (fields : List String) (name : String) :
    Option ConfigValue :=
  match value with
  | table entries => entries.lookup name
  | list items => (fields.zip items).lookup name
  | _ => none

def isSection : ConfigValue → Bool
  | table _ | list _ => true
  | _ => false

end ConfigValue

/-- What must be there. -/
def required {Value : Type} : Option Value → Except SettingsError Value
  | some value => .ok value
  | none => .error .wrongShape

/-! ### Sections -/

namespace Settings

/-- Reads a section with two fields. Fields that are there are read before missing ones are
reported. -/
def readPair {First Second : Type} (firstName secondName : String)
    (readFirst : ConfigValue → Except SettingsError First)
    (readSecond : ConfigValue → Except SettingsError Second) (value : ConfigValue) :
    Except SettingsError (First × Second) := do
  if !value.isSection then .error .wrongShape
  else
    let names := [firstName, secondName]
    let first ← (value.field? names firstName).mapM readFirst
    let second ← (value.field? names secondName).mapM readSecond
    return (← required first, ← required second)

/-- Reads a section with one field. -/
def readSingle {Value : Type} (name : String) (read : ConfigValue → Except SettingsError Value)
    (value : ConfigValue) : Except SettingsError Value := do
  if !value.isSection then .error .wrongShape
  else required (← (value.field? [name] name).mapM read)

open ConfigValue in
/-- The settings that a configuration holds. -/
def ofConfig (config : ConfigValue) : Except SettingsError Settings := do
  let sectionOf? (name : String) : Option ConfigValue := config.entries.lookup name
  let grammar ← (sectionOf? "grammar").mapM (readPair "root_label" "rules" asText asTexts)
  let output ← (sectionOf? "output").mapM (readPair "format" "trace" asText asBool)
  let logging ← (sectionOf? "logging").mapM (readSingle "level" asText)
  let (rootLabel, rules) ← required grammar
  let (format, traces) ← required output
  return ⟨rootLabel, rules, format, traces, ← required logging⟩

/-! ### Layers -/

/-- The rules of the reference grammar in notation. -/
def defaultRules : List String :=
  Reference.rules.map Rule.written

def defaults : ConfigValue :=
  .table [
    ("grammar", .table [("root_label", .text Tree.defaultLabel),
      ("rules", .list (defaultRules.map .text))]),
    ("output", .table [("format", .text "bracket"), ("trace", .bool false)]),
    ("logging", .table [("level", .text "warn")])]

/-- Lays the table of a file over a configuration. The names of its entries are read as paths where
they can be. -/
def addLayer (config layer : ConfigValue) : ConfigValue :=
  let path (name : String) : ConfigPath :=
    (ConfigPath.ofText? name).getD [.field (ConfigValue.nameOf name)]
  layer.entries.foldl (fun config (name, value) => ConfigPath.set value (path name) config) config

/-- The content of a file without the byte order mark that it may begin with. -/
def withoutMark (content : String) : String :=
  match content.toList with
  | '\ufeff' :: rest => String.ofList rest
  | _ => content

def readLayer (content : String) : Except SettingsError ConfigValue :=
  match Toml.ofText? (withoutMark content) with
  | some layer => .ok layer
  | none => .error .unreadableFile

def readOverride (entry : String × ConfigValue) : Except SettingsError (ConfigPath × ConfigValue) :=
  match ConfigPath.ofText? entry.1 with
  | some path => .ok (path, entry.2)
  | none => .error (.badPath entry.1)

/-- The settings of files, given as their texts, and of single values, given with their paths. -/
def load (files : List String) (overrides : List (String × ConfigValue)) :
    Except SettingsError Settings := do
  let overrides ← overrides.mapM readOverride
  let layers ← files.mapM readLayer
  let config := layers.foldl addLayer defaults
  ofConfig (overrides.foldl (fun config (path, value) => ConfigPath.set value path config) config)

/-! ### The chunker -/

/-- The rules as one text in notation. -/
def source (settings : Settings) : String :=
  "\n".intercalate settings.rules ++ "\n"

/-- The chunker with the rules and the root label of the settings. -/
def chunker (settings : Settings) : Except GrammarError Chunker :=
  (Grammar.ofText settings.source).map fun grammar => ⟨grammar, settings.rootLabel⟩

end Settings

end ShallowParse
