/-
This file cuts a JSON text into lexemes: punctuation, strings with their escapes
resolved, numbers and the three names. An escape must stand for a character of
Unicode.
-/

import ShallowParse.Json.Number
import ShallowParse.Text.Digits

namespace ShallowParse

inductive JsonLexeme where
  | openBracket
  | closeBracket
  | openBrace
  | closeBrace
  | comma
  | colon
  | null
  | bool (value : Bool)
  | number (literal : String)
  | string (value : String)
deriving DecidableEq

namespace JsonLexeme

/-! ### Strings -/

/-- The number that four hexadecimal digits denote. -/
def unit? (first second third fourth : Char) : Option Nat := do
  let high := 16 * (← Text.digit? 16 first) + (← Text.digit? 16 second)
  let low := 16 * (← Text.digit? 16 third) + (← Text.digit? 16 fourth)
  return 256 * high + low

/-- The character that one of these stands for after a backslash. -/
def simpleEscape? : Char → Option Char
  | '"' => some '"'
  | '\\' => some '\\'
  | '/' => some '/'
  | 'b' => some '\x08'
  | 'f' => some '\x0c'
  | 'n' => some '\n'
  | 'r' => some '\r'
  | 't' => some '\t'
  | _ => none

def isHighSurrogate (unit : Nat) : Bool :=
  0xd800 ≤ unit && unit < 0xdc00

def isLowSurrogate (unit : Nat) : Bool :=
  0xdc00 ≤ unit && unit < 0xe000

/-- The character that two surrogates stand for. -/
def surrogatePair (high low : Nat) : Char :=
  Char.ofNat (0x10000 + 0x400 * (high - 0xd800) + (low - 0xdc00))

/-- One character more before the content and so many more characters taken from the text. -/
def addChar (char : Char) (taken : Nat) (content : Option (List Char × Nat)) :
    Option (List Char × Nat) :=
  content.map fun (chars, length) => (char :: chars, length + taken)

/-- The content of a string up to its closing quote, and the number of characters it takes with
that quote. -/
def stringContent? : List Char → Option (List Char × Nat)
  | '"' :: _ => some ([], 1)
  | '\\' :: 'u' :: first :: second :: third :: fourth :: rest =>
    match unit? first second third fourth with
    | none => none
    | some unit =>
      if isHighSurrogate unit then
        match rest with
        | '\\' :: 'u' :: first :: second :: third :: fourth :: rest =>
          match unit? first second third fourth with
          | none => none
          | some low =>
            if isLowSurrogate low then addChar (surrogatePair unit low) 12 (stringContent? rest)
            else none
        | _ => none
      else if isLowSurrogate unit then none
      else addChar (Char.ofNat unit) 6 (stringContent? rest)
  | '\\' :: char :: rest =>
    match simpleEscape? char with
    | none => none
    | some escaped => addChar escaped 2 (stringContent? rest)
  | char :: rest => if char < ' ' then none else addChar char 1 (stringContent? rest)
  | [] => none

/-! ### Numbers -/

/-- The characters of which numbers are made. -/
def isNumberChar (char : Char) : Bool :=
  char.isDigit || ['+', '-', '.', 'e', 'E'].contains char

/-! ### Lexemes -/

/-- The lexeme a text begins with, if any is wanted there, and how many characters it takes after
the first. -/
structure Step where
  lexeme : Option JsonLexeme
  extra : Nat

/-- A name that must follow its first letter. -/
def name? (name : String) (lexeme : JsonLexeme) (rest : List Char) : Option Step :=
  let others := name.toList.drop 1
  if others.isPrefixOf rest then some ⟨some lexeme, others.length⟩ else none

/-- A number, given its first character. -/
def number? (first : Char) (rest : List Char) : Option Step :=
  let others := rest.takeWhile isNumberChar
  let unsigned := if first = '-' then others else first :: others
  if JsonNumber.isReadable unsigned then
    some ⟨some (number (String.ofList (first :: others))), others.length⟩
  else none

/-- What a text begins with, or `none` where it begins no lexeme. -/
def step? (first : Char) (rest : List Char) : Option Step :=
  match first with
  | ' ' | '\t' | '\r' | '\n' => some ⟨none, 0⟩
  | '[' => some ⟨some openBracket, 0⟩
  | ']' => some ⟨some closeBracket, 0⟩
  | '{' => some ⟨some openBrace, 0⟩
  | '}' => some ⟨some closeBrace, 0⟩
  | ',' => some ⟨some comma, 0⟩
  | ':' => some ⟨some colon, 0⟩
  | 'n' => name? "null" null rest
  | 't' => name? "true" (bool true) rest
  | 'f' => name? "false" (bool false) rest
  | '"' =>
    (stringContent? rest).map fun (content, taken) => ⟨some (string (String.ofList content)), taken⟩
  | _ => if first.isDigit || first = '-' then number? first rest else none

/-- The lexemes of a text when the next `extra` characters still belong to the last one. -/
def ofChars? : Nat → List Char → Option (List JsonLexeme)
  | _, [] => some []
  | extra + 1, _ :: rest => ofChars? extra rest
  | 0, char :: rest =>
    (step? char rest).bind fun step =>
      (ofChars? step.extra rest).map fun lexemes => step.lexeme.toList ++ lexemes

end JsonLexeme

end ShallowParse
