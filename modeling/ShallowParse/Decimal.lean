/-
This file reads decimal numbers and says which of them are too large for a
floating-point number of double precision.
-/

import ShallowParse.Text.Digits

namespace ShallowParse

/-- The number `coefficient * 10 ^ exponent`. -/
structure Decimal where
  coefficient : Nat
  exponent : Int
deriving DecidableEq

namespace Decimal

/-! ### Reading -/

/-- The number that decimal digits denote. -/
def natOf (digits : List Char) : Nat :=
  digits.foldl (fun number digit => 10 * number + (digit.toNat - '0'.toNat)) 0

/-- The integer denoted by digits that a sign may precede. -/
def signed? : List Char → Option Int
  | '-' :: digits => (Text.nat? 10 digits).map fun number => -Int.ofNat number
  | '+' :: digits => (Text.nat? 10 digits).map Int.ofNat
  | digits => (Text.nat? 10 digits).map Int.ofNat

/-- Whether an integer has a place in 64 bits, one of which is the sign. -/
def isWord (number : Int) : Bool :=
  -Int.ofNat (Nat.pow 2 63) ≤ number && number < Int.ofNat (Nat.pow 2 63)

/-- The exponent that follows the digits of a number, which is 0 where nothing follows. -/
def exponent? : List Char → Option Int
  | [] => some 0
  | 'e' :: rest => signed? rest
  | 'E' :: rest => signed? rest
  | _ => none

/-- The number with these digits before and after the point, of which there must be one. -/
def ofParts? (whole fraction exponent : List Char) : Option Decimal :=
  if whole.isEmpty && fraction.isEmpty then none
  else
    (exponent? exponent).map fun power => ⟨natOf (whole ++ fraction), power - fraction.length⟩

/-- An unsigned number with or without a point and an exponent. Digits may be missing on one side
of the point. -/
def ofChars? (chars : List Char) : Option Decimal :=
  let whole := chars.takeWhile Char.isDigit
  match chars.drop whole.length with
  | '.' :: rest =>
    let fraction := rest.takeWhile Char.isDigit
    ofParts? whole fraction (rest.drop fraction.length)
  | rest => ofParts? whole [] rest

/-! ### Size -/

/-- The least number that is rounded to infinity: the greatest finite number and half the distance
to the number that would follow it. -/
def overflowBound : Nat := Nat.pow 2 1024 - Nat.pow 2 970

/-- The number of decimal digits of a number. -/
def digitCount (number : Nat) : Nat :=
  (toString number).length

/-- Whether a number is rounded to infinity. -/
def overflows (number : Decimal) : Bool :=
  let magnitude := digitCount number.coefficient + number.exponent
  if number.coefficient = 0 || magnitude < 300 then false
  else if 320 < magnitude then true
  else if 0 ≤ number.exponent then
    overflowBound ≤ number.coefficient * Nat.pow 10 number.exponent.toNat
  else overflowBound * Nat.pow 10 (-number.exponent).toNat ≤ number.coefficient

end Decimal

end ShallowParse
