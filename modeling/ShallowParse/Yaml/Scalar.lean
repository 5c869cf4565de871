/-
This file writes strings as scalars of a YAML document. A string over several
lines is written as a literal block. Another string is written plain where that
is read back as the same string, else in single quotes where these can hold it,
and else in double quotes, which can hold everything. A literal block that could
not be read back gives way to double quotes too.
-/

import ShallowParse.Yaml.Resolution

namespace ShallowParse.Yaml

/-! ### Characters -/

/-- The characters that end a line. -/
def isBreak (char : Char) : Bool :=
  ['\n', '\r', '\u0085', '\u2028', '\u2029'].contains char

/-- A character that parts an indicator from what follows it. -/
def isGap (char : Char) : Bool :=
  char = ' ' || char = '\t' || char = '\u0000' || isBreak char

/-- Characters above the control characters that still need an escape. -/
def hiddenMarks : List Char := ['\ufeff', '\ufffe', '\uffff']

/-- A character that can stand in a document without an escape. -/
def isPrintable (char : Char) : Bool :=
  char = '\n' || (' ' ≤ char && char ≤ '~') ||
    ('\u00a0' ≤ char && !hiddenMarks.contains char)

/-- The characters that have a meaning where a scalar begins. -/
def indicators : List Char :=
  ['#', ',', '[', ']', '{', '}', '&', '*', '!', '|', '>', '\'', '"', '%', '@', '`']

/-! ### What a string contains -/

/-- Whether one character that passes the first test stands right before one that passes the
second. -/
def hasPair (first second : Char → Bool) : List Char → Bool
  | char :: next :: rest => (first char && second next) || hasPair first second (next :: rest)
  | _ => false

/-- Whether the beginning of a string would be taken for an indicator. -/
def beginsLikeIndicator : List Char → Bool
  | '-' :: '-' :: '-' :: _ => true
  | '.' :: '.' :: '.' :: _ => true
  | first :: rest =>
    indicators.contains first ||
      (['?', ':', '-'].contains first && rest.head?.all isGap)
  | [] => false

/-- Whether a colon with a gap after it, or a number sign with a gap before it, stands within a
string. -/
def containsIndicator (text : List Char) : Bool :=
  hasPair (· == ':') isGap text || text.getLast? == some ':' || hasPair isGap (· == '#') text

/-- Whether the first or last character passes a test. -/
def hasEnd (test : Char → Bool) (text : List Char) : Bool :=
  text.head?.any test || text.getLast?.any test

/-- Whether quotes without escapes, or a block, would lose something of a string. -/
def needsEscapes (text : List Char) : Bool :=
  !text.all isPrintable || hasPair (· == ' ') isBreak text

/-! ### Styles -/

inductive Style where
  | plain
  | singleQuoted
  | doubleQuoted
  | literal
deriving DecidableEq

def canBePlain (text : List Char) : Bool :=
  !needsEscapes text && !text.any isBreak && !hasEnd (· == ' ') text &&
    !beginsLikeIndicator text && !containsIndicator text

def canBeSingleQuoted (text : List Char) : Bool :=
  !needsEscapes text && !hasPair isBreak (· == ' ') text

def canBeLiteral (text : List Char) : Bool :=
  !needsEscapes text && text.getLast? ≠ some ' '

/-- The style of a string. -/
def style (text : String) : Style :=
  let chars := text.toList
  if chars.contains '\n' then
    if canBeLiteral chars then .literal else .doubleQuoted
  else if canBePlain chars && !isAmbiguous text then .plain
  else if canBeSingleQuoted chars then .singleQuoted
  else .doubleQuoted

/-! ### Writing -/

def spaces (count : Nat) : List Char :=
  List.replicate count ' '

/-- Characters with the beginning of every line but the first moved in, unless the line is empty.
At the end of the last line `closing` is written. -/
def indented (indent : Nat) (writeChar : Char → List Char) (closing : List Char)
    (atLineStart : Bool) : List Char → List Char
  | [] => if atLineStart && !closing.isEmpty then spaces indent ++ closing else closing
  | char :: rest =>
    if isBreak char then char :: indented indent writeChar closing true rest
    else
      (if atLineStart then spaces indent else []) ++ writeChar char ++
        indented indent writeChar closing false rest

/-- A character inside single quotes. -/
def singleQuotedChar (char : Char) : List Char :=
  if char = '\'' then ['\'', '\''] else [char]

def singleQuoted (indent : Nat) (text : List Char) : List Char :=
  '\'' :: indented indent singleQuotedChar ['\''] false text

/-- What stands after the backslash for a character that has a short escape. -/
def shortEscape? : Char → Option Char
  | '\u0000' => some '0'
  | '\u0007' => some 'a'
  | '\u0008' => some 'b'
  | '\u0009' => some 't'
  | '\u000a' => some 'n'
  | '\u000b' => some 'v'
  | '\u000c' => some 'f'
  | '\u000d' => some 'r'
  | '\u001b' => some 'e'
  | '"' => some '"'
  | '\\' => some '\\'
  | '\u0085' => some 'N'
  | '\u2028' => some 'L'
  | '\u2029' => some 'P'
  | _ => none

/-- The escape of a character by its number. -/
def numericEscape (char : Char) : List Char :=
  if char.toNat < 0x100 then 'x' :: Text.hexDigits 'A' 2 char.toNat
  else if char.toNat < 0x10000 then 'u' :: Text.hexDigits 'A' 4 char.toNat
  else 'U' :: Text.hexDigits 'A' 8 char.toNat

/-- A character inside double quotes. -/
def doubleQuotedChar (char : Char) : List Char :=
  match shortEscape? char with
  | some escape => ['\\', escape]
  | none => if isPrintable char then [char] else '\\' :: numericEscape char

def doubleQuoted (text : List Char) : List Char :=
  '"' :: text.flatMap doubleQuotedChar ++ ['"']

/-- The indentation after the sign of a block, which must be given where the block does not show
it. -/
def indentationHint : List Char → List Char
  | [] => []
  | first :: _ => if first = ' ' || isBreak first then ['2'] else []

/-- What becomes of the line breaks at the end of a block. -/
def chompingHint (text : List Char) : List Char :=
  match text.reverse with
  | last :: before =>
    if !isBreak last then ['-'] else if before.head?.all isBreak then ['+'] else []
  | [] => ['-']

/-- A literal block. It ends with a line break of its own only if the string does. -/
def literal (indent : Nat) (text : List Char) : List Char :=
  '|' :: indentationHint text ++ chompingHint text ++ '\n' ::
    indented indent (fun char => [char]) [] true text

/-- Ends the line, unless it has just ended. -/
def endLine (text : List Char) : List Char :=
  if text.getLast?.any isBreak then text else text ++ ['\n']

/-- A string with the end of its last line, when further lines of it are moved in. -/
def scalarLine (indent : Nat) (text : String) : List Char :=
  match style text with
  | .plain => text.toList ++ ['\n']
  | .singleQuoted => singleQuoted indent text.toList ++ ['\n']
  | .doubleQuoted => doubleQuoted text.toList ++ ['\n']
  | .literal => endLine (literal indent text.toList)

end ShallowParse.Yaml
