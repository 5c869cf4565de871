/-
This file reads the words of a TOML text that stand for values: truth values,
integers, numbers with a point or an exponent, dates and times of day.
-/

import ShallowParse.Config.Value
import ShallowParse.Toml.Date

namespace ShallowParse.Toml

/-! ### Digits -/

/-- Digits of a base without the single underscores that may stand between them. -/
def plainDigits? (base : Nat) : List Char → Option (List Char)
  | [] => none
  | [digit] => if Text.isDigitOf base digit then some [digit] else none
  | digit :: '_' :: rest =>
    if Text.isDigitOf base digit then (plainDigits? base rest).map (digit :: ·) else none
  | digit :: rest =>
    if Text.isDigitOf base digit then (plainDigits? base rest).map (digit :: ·) else none

/-- Decimal digits without a leading zero. -/
def wholeDigits? (text : List Char) : Option (List Char) :=
  (plainDigits? 10 text).filter fun digits => digits.length = 1 || digits.head? ≠ some '0'

/-- Whether a sign is a minus, and what follows it. -/
def splitSign : List Char → Bool × List Char
  | '-' :: rest => (true, rest)
  | '+' :: rest => (false, rest)
  | text => (false, text)

/-! ### Integers -/

/-- An integer of 64 bits. -/
def bounded? (number : Int) : Option ConfigValue :=
  if Decimal.isWord number then some (.integer number) else none

/-- The natural number that digits of a base denote. -/
def natural? (base : Nat) (digits : List Char) : Option Int :=
  ((plainDigits? base digits).bind (Text.nat? base)).map Int.ofNat

def decimalInteger? (text : List Char) : Option ConfigValue :=
  let (isNegative, digits) := splitSign text
  ((wholeDigits? digits).bind (Text.nat? 10)).bind fun number =>
    bounded? (if isNegative then -number else number)

def integer? : List Char → Option ConfigValue
  | '0' :: 'x' :: digits => (natural? 16 digits).bind bounded?
  | '0' :: 'o' :: digits => (natural? 8 digits).bind bounded?
  | '0' :: 'b' :: digits => (natural? 2 digits).bind bounded?
  | text => decimalInteger? text

/-! ### Numbers with a point or an exponent -/

def isDigitOrUnderscore (char : Char) : Bool :=
  char.isDigit || char = '_'

/-- The exponent after the letter that begins it. -/
def exponent? (text : List Char) : Option Int :=
  let (isNegative, digits) := splitSign text
  (natural? 10 digits).map fun power => if isNegative then -power else power

/-- The number with the given digits before what follows them: a fraction, an exponent or both. -/
def decimal? (whole : List Char) : List Char → Option Decimal
  | '.' :: rest => do
    let digits := rest.takeWhile isDigitOrUnderscore
    let fraction ← plainDigits? 10 digits
    let power ← match rest.drop digits.length with
      | [] => some 0
      | sign :: rest => if sign = 'e' ∨ sign = 'E' then exponent? rest else none
    return ⟨Decimal.natOf (whole ++ fraction), power - fraction.length⟩
  | sign :: rest =>
    if sign = 'e' ∨ sign = 'E' then (exponent? rest).map (⟨Decimal.natOf whole, ·⟩) else none
  | [] => none

/-- A number that is not above all numbers of double precision. -/
def number? (text : List Char) : Option Double := do
  let (isNegative, unsigned) := splitSign text
  let digits := unsigned.takeWhile isDigitOrUnderscore
  let whole ← wholeDigits? digits
  let value ← decimal? whole (unsigned.drop digits.length)
  match Double.ofDecimal isNegative value with
  | .infinite false => none
  | number => some number

/-- Infinity with or without a sign, or the value that is not a number. -/
def special? (text : List Char) : Option Double :=
  let (isNegative, name) := splitSign text
  if name = "inf".toList then some (.infinite isNegative)
  else if name = "nan".toList then some .notANumber
  else none

/-! ### Words -/

/-- The value that a word stands for. -/
def scalar? (word : List Char) : Option ConfigValue :=
  if word = "true".toList then some (.bool true)
  else if word = "false".toList then some (.bool false)
  else
    match dateTime? bareLimits word with
    | some date => some (.text (String.ofList date))
    | none =>
      match number? word, special? word with
      | some number, _ => some (.float number)
      | none, some number => some (.float number)
      | none, none => integer? word

end ShallowParse.Toml
