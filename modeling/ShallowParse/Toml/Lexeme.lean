/-
This file cuts a TOML text into lexemes: punctuation, line breaks, strings and
words. A word is a run of the characters that keys without quotes, numbers and
dates are made of; what it means depends on where it stands. Blanks and comments
are dropped.
-/

import ShallowParse.Toml.Quoted

namespace ShallowParse.Toml

inductive Lexeme where
  | word (chars : List Char)
  | string (quoted : Quoted)
  | equals
  | comma
  /-- A bracket, and whether the next character is another one of its kind. -/
  | openBracket (isDoubled : Bool)
  | closeBracket (isDoubled : Bool)
  | openBrace
  | closeBrace
  | lineBreak

namespace Lexeme

/-! ### Words -/

def isWordChar (char : Char) : Bool :=
  char.isAlphanum || ['_', '-', '+', '.', ':'].contains char

/-- Whether characters have the form of a date, such as `1979-05-27`. -/
def isDateLike : List Char → Bool
  | [y₁, y₂, y₃, y₄, '-', m₁, m₂, '-', d₁, d₂] =>
    [y₁, y₂, y₃, y₄, m₁, m₂, d₁, d₂].all Char.isDigit
  | _ => false

/-- The word that a text begins with. A date, a blank and the time of day after it are one word. -/
def wordOf (text : List Char) : List Char :=
  let word := text.takeWhile isWordChar
  match text.drop word.length with
  | ' ' :: digit :: rest =>
    if isDateLike word && digit.isDigit then
      word ++ ' ' :: (digit :: rest).takeWhile isWordChar
    else word
  | _ => word

/-! ### Lexemes -/

/-- The lexeme a text begins with, if any, and the number of characters it takes after the
first. -/
structure Step where
  lexeme : Option Lexeme
  extra : Nat

/-- What a text begins with, or `none` where it cannot begin like this. -/
def step? (first : Char) (rest : List Char) : Option Step :=
  match first with
  | ' ' | '\t' => some ⟨none, 0⟩
  | '#' => some ⟨none, (rest.takeWhile isTextChar).length⟩
  | '\n' => some ⟨some lineBreak, 0⟩
  | '\r' => if rest.head? = some '\n' then some ⟨some lineBreak, 1⟩ else none
  | '=' => some ⟨some equals, 0⟩
  | ',' => some ⟨some comma, 0⟩
  | '[' => some ⟨some (openBracket (rest.head? == some '[')), 0⟩
  | ']' => some ⟨some (closeBracket (rest.head? == some ']')), 0⟩
  | '{' => some ⟨some openBrace, 0⟩
  | '}' => some ⟨some closeBrace, 0⟩
  | '"' | '\'' =>
    (Quoted.ofChars? first rest).map fun quoted => ⟨some (string quoted), quoted.extra⟩
  | _ =>
    let word := wordOf (first :: rest)
    if word.isEmpty then none else some ⟨some (Lexeme.word word), word.length - 1⟩

/-- The lexemes of a text when the next `extra` characters still belong to the last one. -/
def ofChars? : Nat → List Char → Option (List Lexeme)
  | _, [] => some []
  | extra + 1, _ :: rest => ofChars? extra rest
  | 0, char :: rest =>
    (step? char rest).bind fun step =>
      (ofChars? step.extra rest).map fun lexemes => step.lexeme.toList ++ lexemes

/-- The lexemes of a text, which may begin with a byte order mark. -/
def ofText? (text : String) : Option (List Lexeme) :=
  match text.toList with
  | '\ufeff' :: rest => ofChars? 0 rest
  | chars => ofChars? 0 chars

end Lexeme

end ShallowParse.Toml
