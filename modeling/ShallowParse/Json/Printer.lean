/-
This file writes JSON values over several lines, with two spaces for each level.
Empty arrays and objects stand on one line.
-/

import ShallowParse.Json
import ShallowParse.Text.Digits

namespace ShallowParse.JsonValue

/-- A character inside quotes. -/
def quotedChar (char : Char) : List Char :=
  match char with
  | '"' => ['\\', '"']
  | '\\' => ['\\', '\\']
  | '\x08' => ['\\', 'b']
  | '\x0c' => ['\\', 'f']
  | '\n' => ['\\', 'n']
  | '\r' => ['\\', 'r']
  | '\t' => ['\\', 't']
  | _ => if char < ' ' then '\\' :: 'u' :: Text.hexDigits 'a' 4 char.toNat else [char]

def quoted (text : String) : List Char :=
  '"' :: text.toList.flatMap quotedChar ++ ['"']

/-- The beginning of a line at a level. -/
def lineAt (level : Nat) : List Char :=
  '\n' :: List.replicate (2 * level) ' '

mutual

/-- A value whose last line is at the given level. -/
def lines (level : Nat) : JsonValue → List Char
  | null => "null".toList
  | bool true => "true".toList
  | bool false => "false".toList
  | number literal => literal.toList
  | string value => quoted value
  | array [] => ['[', ']']
  | array items => '[' :: itemLines (level + 1) items ++ lineAt level ++ [']']
  | object [] => ['{', '}']
  | object fields => '{' :: fieldLines (level + 1) fields ++ lineAt level ++ ['}']

def itemLines (level : Nat) : List JsonValue → List Char
  | [] => []
  | [item] => lineAt level ++ lines level item
  | item :: items => lineAt level ++ lines level item ++ ',' :: itemLines level items

def fieldLines (level : Nat) : List (String × JsonValue) → List Char
  | [] => []
  | [(name, value)] => lineAt level ++ quoted name ++ ':' :: ' ' :: lines level value
  | (name, value) :: fields =>
    lineAt level ++ quoted name ++ ':' :: ' ' :: lines level value ++
      ',' :: fieldLines level fields

end

/-- A value over several lines. -/
def pretty (value : JsonValue) : String :=
  String.ofList (lines 0 value)

end ShallowParse.JsonValue
