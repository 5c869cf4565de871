/-
This file reads the strings of a TOML text. A string stands between quotes of one
of two kinds. Only between double quotes can characters be escaped. Three quotes
of a kind begin a string that may go over several lines.

The functions here begin after the opening quotes. They return the content and the
number of characters that it takes in the text, the closing quotes included.
-/

import ShallowParse.Text.Digits

namespace ShallowParse.Toml

/-! ### Characters -/

/-- A character that may stand in a text as it is: not a control character, but for the
tabulator. -/
def isTextChar (char : Char) : Bool :=
  char = '\t' || (' ' ≤ char && char ≠ '\x7f')

def isBlankChar (char : Char) : Bool :=
  char = ' ' || char = '\t'

/-- The number of characters of the line break that a text begins with. -/
def lineBreakLength? : List Char → Option Nat
  | '\n' :: _ => some 1
  | '\r' :: '\n' :: _ => some 2
  | _ => none

/-! ### Escapes -/

/-- The character with a number in base sixteen. -/
def numberedChar? (digits : List Char) : Option Char :=
  (Text.nat? 16 digits).bind fun number =>
    if number.isValidChar then some (Char.ofNat number) else none

/-- The character that is escaped after a backslash and the number of characters that escape it. -/
def escape? : List Char → Option (Char × Nat)
  | 'b' :: _ => some ('\x08', 1)
  | 't' :: _ => some ('\t', 1)
  | 'n' :: _ => some ('\n', 1)
  | 'f' :: _ => some ('\x0c', 1)
  | 'r' :: _ => some ('\r', 1)
  | '"' :: _ => some ('"', 1)
  | '\\' :: _ => some ('\\', 1)
  | 'u' :: rest =>
    if rest.length < 4 then none else (numberedChar? (rest.take 4)).map (·, 5)
  | 'U' :: rest =>
    if rest.length < 8 then none else (numberedChar? (rest.take 8)).map (·, 9)
  | _ => none

/-- The number of blanks and line breaks that a text begins with, in characters. -/
def gapLength : List Char → Nat
  | ' ' :: rest => gapLength rest + 1
  | '\t' :: rest => gapLength rest + 1
  | '\n' :: rest => gapLength rest + 1
  | '\r' :: '\n' :: rest => gapLength rest + 2
  | _ => 0

/-- The number of characters that a backslash at the end of a line takes away. -/
def joinLength? (rest : List Char) : Option Nat :=
  if (lineBreakLength? (rest.dropWhile isBlankChar)).isSome then some (gapLength rest) else none

/-! ### Contents -/

/-- Characters before a content that is read from the next character of the text on. -/
def before (chars : List Char) (content : Option (List Char × Nat)) : Option (List Char × Nat) :=
  content.map fun (later, taken) => (chars ++ later, taken + 1)

/-- The content of a string on one line, when the next `skipped` characters belong to an escape. -/
def lineContent? (quote : Char) : Nat → List Char → Option (List Char × Nat)
  | _, [] => none
  | skipped + 1, _ :: rest => before [] (lineContent? quote skipped rest)
  | 0, char :: rest =>
    if char = quote then some ([], 1)
    else if char = '\\' ∧ quote = '"' then
      (escape? rest).bind fun (escaped, length) =>
        before [escaped] (lineContent? quote length rest)
    else if isTextChar char then before [char] (lineContent? quote 0 rest)
    else none

/-- The number of quotes that still belong to the content where quotes end a string over several
lines: up to two, if more than three follow one another. -/
def closing? (quote : Char) (text : List Char) : Option Nat :=
  let count := (text.takeWhile (· == quote)).length
  if count < 3 then none else some (min (count - 3) 2)

/-- The content of a string over several lines, when the next `skipped` characters belong to an
escape. Every line break becomes a line feed. -/
def blockContent? (quote : Char) : Nat → List Char → Option (List Char × Nat)
  | _, [] => none
  | skipped + 1, _ :: rest => before [] (blockContent? quote skipped rest)
  | 0, char :: rest =>
    if char = quote then
      match closing? quote (char :: rest) with
      | some count => some (List.replicate count quote, count + 3)
      | none => before [quote] (blockContent? quote 0 rest)
    else if char = '\\' ∧ quote = '"' then
      match escape? rest, joinLength? rest with
      | some (escaped, length), _ => before [escaped] (blockContent? quote length rest)
      | none, some length => before [] (blockContent? quote length rest)
      | none, none => none
    else if char = '\r' then
      if rest.head? = some '\n' then before [] (blockContent? quote 0 rest) else none
    else if char = '\n' || isTextChar char then before [char] (blockContent? quote 0 rest)
    else none

/-! ### Strings -/

/-- A string with the number of characters that it takes after its first quote. -/
structure Quoted where
  content : String
  isBlock : Bool
  extra : Nat

/-- The string that follows a quote. -/
def Quoted.ofChars? (quote : Char) (rest : List Char) : Option Quoted :=
  if rest.take 2 = [quote, quote] then
    let inner := rest.drop 2
    let first := (lineBreakLength? inner).getD 0
    (blockContent? quote 0 (inner.drop first)).map fun (content, taken) =>
      ⟨String.ofList content, true, 2 + first + taken⟩
  else
    (lineContent? quote 0 rest).map fun (content, taken) =>
      ⟨String.ofList content, false, taken⟩

end ShallowParse.Toml
