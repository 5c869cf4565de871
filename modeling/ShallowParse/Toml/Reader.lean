/-
This file reads TOML texts. The reader goes through the lexemes once. It keeps the
table of the whole text, the header in force, and the arrays and tables in braces
that are open.
-/

import ShallowParse.Toml.Lexeme
import ShallowParse.Toml.Scalar
import ShallowParse.Toml.Table

namespace ShallowParse.Toml

/-! ### Keys -/

/-- A name, or a point between names. -/
inductive KeyPart where
  | name (text : String)
  | point

/-- A key being read: its names, last first, and whether a name must come next. -/
structure KeyReader where
  names : List String
  expectsName : Bool

namespace KeyReader

def start : KeyReader := ⟨[], true⟩

/-- A key may not have as many names as this. -/
def lengthLimit : Nat := 80

def addPart? (reader : KeyReader) : KeyPart → Option KeyReader
  | .name text =>
    if reader.expectsName && reader.names.length + 1 < lengthLimit then
      some ⟨text :: reader.names, false⟩
    else none
  | .point => if reader.expectsName then none else some ⟨reader.names, true⟩

/-- The key itself, when it is complete. -/
def finish? (reader : KeyReader) : Option (List String) :=
  if reader.expectsName then none else some reader.names.reverse

/-- The characters of a name without quotes. -/
def isNameChar (char : Char) : Bool :=
  char.isAlphanum || char = '_' || char = '-'

/-- The parts of a word, when `pending` holds the name being read, last character first. -/
def partsOf? (pending : List Char) : List Char → Option (List KeyPart)
  | [] => some (nameOf pending)
  | char :: rest =>
    if isNameChar char then partsOf? (char :: pending) rest
    else if char = '.' then (partsOf? [] rest).map fun parts => nameOf pending ++ .point :: parts
    else none
where
  nameOf (pending : List Char) : List KeyPart :=
    if pending.isEmpty then [] else [.name (String.ofList pending.reverse)]

/-- Adds a lexeme, if it can be a part of a key. -/
def add? (reader : KeyReader) : Lexeme → Option KeyReader
  | .word chars => (partsOf? [] chars).bind fun parts => parts.foldlM addPart? reader
  | .string quoted => if quoted.isBlock then none else reader.addPart? (.name quoted.content)
  | _ => none

end KeyReader

/-! ### The reader -/

/-- What waits for the value that is being read. -/
inductive Waiting where
  /-- A key of the table in force. -/
  | line (key : List String)
  /-- An array with its items, last first. -/
  | array (items : List Item)
  /-- A table in braces and one of its keys. -/
  | braces (table : Table) (key : List String)

/-- What must come next. -/
inductive Expectation where
  /-- A key, a header or an empty line. -/
  | line
  | lineEnd
  | header (isElement : Bool) (key : KeyReader)
  /-- The second bracket at the beginning of a header. -/
  | headerStart
  /-- The second bracket at the end of a header. -/
  | headerEnd (header : List String)
  | lineKey (key : KeyReader)
  | bracesKey (table : Table) (key : KeyReader)
  | firstKeyOrClose
  | value
  | valueOrClose
  | commaOrClose

structure Reader where
  document : Table
  header : List String
  waiting : List Waiting
  expected : Expectation

namespace Reader

def start : Reader := ⟨Table.empty .header, [], [], .line⟩

/-- Arrays and tables in braces may not be nested this deep. -/
def depthLimit : Nat := 80

/-- The reader with something else expected. -/
def expect (reader : Reader) (expected : Expectation) : Reader :=
  { reader with expected := expected }

/-- Opens an array or a table in braces, unless it is too deep. The first that waits is always a
line. -/
def openWith? (reader : Reader) (waiting : List Waiting) (expected : Expectation) :
    Option Reader :=
  if reader.waiting.length < depthLimit then
    some { reader with waiting := waiting ++ reader.waiting, expected := expected }
  else none

/-- A value is complete and goes to what waits for it. -/
def complete? (reader : Reader) (item : Item) : List Waiting → Option Reader
  | .line key :: _ => do
    let document ← reader.document.within? .passage (Table.assign? key item) reader.header
    return { reader with document := document, waiting := [], expected := .lineEnd }
  | .array items :: others =>
    some { reader with waiting := .array (item :: items) :: others, expected := .commaOrClose }
  | .braces table key :: others => do
    let table ← table.assign? key item
    return { reader with waiting := .braces table key :: others, expected := .commaOrClose }
  | [] => none

/-- A value begins, or is complete at once. -/
def beginValue? (reader : Reader) : Lexeme → Option Reader
  | .word chars => (scalar? chars).bind fun value => reader.complete? (.scalar value) reader.waiting
  | .string quoted => reader.complete? (.string quoted.content) reader.waiting
  | .openBracket _ => reader.openWith? [.array []] .valueOrClose
  | .openBrace => reader.openWith? [] .firstKeyOrClose
  | _ => none

/-- A line begins with something else than a line break. -/
def beginLine? (reader : Reader) : Lexeme → Option Reader
  | .openBracket true => some (reader.expect .headerStart)
  | .openBracket false => some (reader.expect (.header false .start))
  | lexeme => (KeyReader.start.add? lexeme).map fun key => reader.expect (.lineKey key)

/-- A header is complete and comes into force. -/
def closeHeader? (reader : Reader) (isElement : Bool) (header : List String) : Option Reader := do
  let document ←
    if isElement then reader.document.openElement? header else reader.document.openTable? header
  return { reader with document := document, header := header, expected := .lineEnd }

/-- Goes on in a header. -/
def nextInHeader? (reader : Reader) (isElement : Bool) (key : KeyReader) :
    Lexeme → Option Reader
  | .closeBracket isDoubled => do
    let header ← key.finish?
    if !isElement then reader.closeHeader? false header
    else if isDoubled then some (reader.expect (.headerEnd header))
    else none
  | lexeme => (key.add? lexeme).map fun key => reader.expect (.header isElement key)

/-- An array is complete. -/
def closeArray? (reader : Reader) : Option Reader :=
  match reader.waiting with
  | .array items :: others => reader.complete? (.list items.reverse) others
  | _ => none

/-- Goes on after a value in an array or in a table in braces. -/
def nextAfterValue? (reader : Reader) (lexeme : Lexeme) : Option Reader :=
  match reader.waiting, lexeme with
  | .array _ :: _, .lineBreak => some reader
  | .array _ :: _, .comma => some (reader.expect .valueOrClose)
  | .array _ :: _, .closeBracket _ => reader.closeArray?
  | .braces table _ :: others, .comma =>
    some { reader with waiting := others, expected := .bracesKey table .start }
  | .braces table _ :: others, .closeBrace => reader.complete? (.braces table.fields) others
  | _, _ => none

/-- The reader after a lexeme. -/
def next? (reader : Reader) (lexeme : Lexeme) : Option Reader :=
  match reader.expected, lexeme with
  | .line, .lineBreak => some reader
  | .line, lexeme => reader.beginLine? lexeme
  | .lineEnd, .lineBreak => some (reader.expect .line)
  | .headerStart, .openBracket _ => some (reader.expect (.header true .start))
  | .header isElement key, lexeme => reader.nextInHeader? isElement key lexeme
  | .headerEnd header, .closeBracket _ => reader.closeHeader? true header
  | .lineKey key, .equals =>
    key.finish?.map fun key => { reader with waiting := [.line key], expected := .value }
  | .lineKey key, lexeme => (key.add? lexeme).map fun key => reader.expect (.lineKey key)
  | .bracesKey table key, .equals =>
    key.finish?.map fun key =>
      { reader with waiting := .braces table key :: reader.waiting, expected := .value }
  | .bracesKey table key, lexeme =>
    (key.add? lexeme).map fun key => reader.expect (.bracesKey table key)
  | .firstKeyOrClose, .closeBrace => reader.complete? (.braces []) reader.waiting
  | .firstKeyOrClose, lexeme =>
    (KeyReader.start.add? lexeme).map fun key =>
      reader.expect (.bracesKey (Table.empty .header) key)
  | .value, lexeme => reader.beginValue? lexeme
  | .valueOrClose, .lineBreak => some reader
  | .valueOrClose, .closeBracket _ => reader.closeArray?
  | .valueOrClose, lexeme => reader.beginValue? lexeme
  | .commaOrClose, lexeme => reader.nextAfterValue? lexeme
  | _, _ => none

/-- The value of the whole text, where it may end. It must be a table. -/
def finish? (reader : Reader) : Option ConfigValue :=
  match reader.expected, Item.tableValue? reader.document.fields with
  | .line, some (.table entries) => some (.table entries)
  | .lineEnd, some (.table entries) => some (.table entries)
  | _, _ => none

end Reader

/-- The table that a TOML text holds. -/
def ofText? (text : String) : Option ConfigValue := do
  let lexemes ← Lexeme.ofText? text
  let reader ← lexemes.foldlM Reader.next? Reader.start
  reader.finish?

end ShallowParse.Toml
