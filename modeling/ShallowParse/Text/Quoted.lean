/-
This file writes a text between double quotes, so that its beginning, its end and
all invisible characters can be seen.
-/

import ShallowParse.Text.Digits
import ShallowParse.Text.Invisible

namespace ShallowParse.Text

/-- The digits of a number in base sixteen without leading zeros. -/
def hexNumber (number : Nat) : List Char :=
  match (hexDigits 'a' 6 number).dropWhile (· == '0') with
  | [] => ['0']
  | digits => digits

/-- A character inside quotes. -/
def quotedChar (char : Char) : List Char :=
  match char with
  | '\u0000' => ['\\', '0']
  | '\t' => ['\\', 't']
  | '\r' => ['\\', 'r']
  | '\n' => ['\\', 'n']
  | '"' => ['\\', '"']
  | '\\' => ['\\', '\\']
  | _ =>
    if isInvisible char then ['\\', 'u', '{'] ++ hexNumber char.toNat ++ ['}'] else [char]

/-- A text between double quotes. -/
def quoted (text : String) : String :=
  String.ofList ('"' :: text.toList.flatMap quotedChar ++ ['"'])

/-- The items of a list between square brackets. -/
def bracketed (items : List String) : String :=
  "[" ++ ", ".intercalate items ++ "]"

end ShallowParse.Text
