/-
This file cuts a text in rule notation into lexemes and says where each of them
stands, in bytes of the text's UTF-8 form.

Spaces, tabs and line ends are skipped, and so are comments, which run from `#`
to the end of the line. Reading stops at the first text that begins no lexeme.
The text reported is then the longest stretch that could still have become one:
an unclosed tag class, unclosed bounds, or the one character that begins nothing.
-/

import ShallowParse.Notation.Lexeme
import ShallowParse.Text.Bytes
import ShallowParse.Text.Digits

namespace ShallowParse

/-! ### One lexeme -/

/-- What a text begins with. -/
inductive Lexeme.Start where
  | skipped
  | found (lexeme : Lexeme)
  | stuck

/-- What a text begins with, and how many characters it takes after the first. -/
structure Lexeme.Step where
  start : Lexeme.Start
  extra : Nat

namespace Lexeme

def isLabelStart (char : Char) : Bool :=
  char.isAlpha || char = '_'

def isLabelChar (char : Char) : Bool :=
  char.isAlphanum || char = '_' || char = '-'

/-- The number of characters of the longest beginning that may stand in a tag class. A backslash
takes the next character with it, unless that ends the line. -/
def classLength : List Char → Nat
  | '\\' :: '\n' :: _ => 0
  | '\\' :: _ :: rest => classLength rest + 2
  | '\\' :: [] => 0
  | char :: rest => if ['<', '>', '\n'].contains char then 0 else classLength rest + 1
  | [] => 0

/-- What stands after `<`. -/
def classStep (rest : List Char) : Step :=
  let length := classLength rest
  match rest.drop length with
  | '>' :: _ => ⟨.found (.tagClass (String.ofList (rest.take length))), length + 1⟩
  | _ => ⟨.stuck, length⟩

/-- The largest number that bounds may hold. -/
def boundLimit : Nat := Nat.pow 2 32 - 1

/-- The number that decimal digits denote, if bounds may hold it. -/
def bound? (digits : List Char) : Option Nat :=
  (Text.nat? 10 digits).filter (· ≤ boundLimit)

/-- The bounds written with these digits; `most` is `none` where there is no comma. -/
def boundsOf? (least : List Char) : Option (List Char) → Option Lexeme
  | none => (bound? least).map fun count => bounds count (some count)
  | some [] => (bound? least).map fun count => bounds count none
  | some most => (bound? least).bind fun low => (bound? most).map fun high => bounds low (some high)

/-- Bounds that are closed, which are stuck if a number in them is too large. -/
def closedBounds (least : List Char) (most : Option (List Char)) (extra : Nat) : Step :=
  match boundsOf? least most with
  | some lexeme => ⟨.found lexeme, extra⟩
  | none => ⟨.stuck, extra⟩

/-- What stands after an opening brace: bounds if a digit follows, else the body of a rule. -/
def braceStep (rest : List Char) : Step :=
  let least := rest.takeWhile Char.isDigit
  if least.isEmpty then ⟨.found .openBrace, 0⟩
  else
    match rest.drop least.length with
    | '}' :: _ => closedBounds least none (least.length + 1)
    | ',' :: rest =>
      let most := rest.takeWhile Char.isDigit
      match rest.drop most.length with
      | '}' :: _ => closedBounds least (some most) (least.length + most.length + 2)
      | _ => ⟨.stuck, least.length + most.length + 1⟩
    | _ => ⟨.stuck, least.length⟩

/-- What a text begins with, given its first character and the characters after it. -/
def step (first : Char) (rest : List Char) : Step :=
  match first with
  | ' ' | '\t' | '\r' | '\n' => ⟨.skipped, 0⟩
  | '#' => ⟨.skipped, (rest.takeWhile (· ≠ '\n')).length⟩
  | '<' => classStep rest
  | '{' => braceStep rest
  | '}' => ⟨.found .closeBrace, 0⟩
  | ':' => ⟨.found .colon, 0⟩
  | '(' => ⟨.found .openParen, 0⟩
  | ')' => ⟨.found .closeParen, 0⟩
  | '|' => ⟨.found .bar, 0⟩
  | '?' => ⟨.found .question, 0⟩
  | '*' => ⟨.found .star, 0⟩
  | '+' => ⟨.found .plus, 0⟩
  | _ =>
    if isLabelStart first then
      let more := rest.takeWhile isLabelChar
      ⟨.found (.label (String.ofList (first :: more))), more.length⟩
    else ⟨.stuck, 0⟩

end Lexeme

/-! ### A whole text -/

/-- A value with the bytes of the text it was read from. -/
structure Placed (α : Type) where
  value : α
  start : Nat
  stop : Nat

/-- The lexemes of a text up to the first place where none can be read, and what stands there. -/
structure Lexing where
  found : List (Placed Lexeme)
  stuck : Option (Placed String)

namespace Lexing

def cons (lexeme : Placed Lexeme) (lexing : Lexing) : Lexing :=
  { lexing with found := lexeme :: lexing.found }

/-- Reads on when the next `extra` characters still belong to the last lexeme and `offset` bytes
have been read. -/
def ofChars : Nat → Nat → List Char → Lexing
  | _, _, [] => ⟨[], none⟩
  | extra + 1, offset, char :: rest => ofChars extra (offset + char.utf8Size) rest
  | 0, offset, char :: rest =>
    let step := Lexeme.step char rest
    let text := char :: rest.take step.extra
    let stop := offset + Text.byteLength text
    match step.start with
    | .skipped => ofChars step.extra (offset + char.utf8Size) rest
    | .found lexeme =>
      cons ⟨lexeme, offset, stop⟩ (ofChars step.extra (offset + char.utf8Size) rest)
    | .stuck => ⟨[], some ⟨String.ofList text, offset, stop⟩⟩

/-- The lexemes of a text. -/
def ofText (text : String) : Lexing :=
  ofChars 0 0 text.toList

end Lexing

end ShallowParse
