/-
This file reads and writes the digits of natural numbers in any base up to
thirty-six. From ten on the digits are letters.
-/

namespace ShallowParse.Text

/-! ### Reading -/

/-- The number that a digit or letter of either case denotes. -/
def digitValue? (char : Char) : Option Nat :=
  if char.isDigit then some (char.toNat - '0'.toNat)
  else if 'a' ≤ char ∧ char ≤ 'z' then some (char.toNat - 'a'.toNat + 10)
  else if 'A' ≤ char ∧ char ≤ 'Z' then some (char.toNat - 'A'.toNat + 10)
  else none

/-- The number that a digit of a base denotes. -/
def digit? (base : Nat) (char : Char) : Option Nat :=
  (digitValue? char).filter (· < base)

def isDigitOf (base : Nat) (char : Char) : Bool :=
  (digit? base char).isSome

/-- The number denoted by a number followed by digits of a base. -/
def natFrom? (base : Nat) (number : Nat) : List Char → Option Nat
  | [] => some number
  | char :: rest => (digit? base char).bind fun digit => natFrom? base (base * number + digit) rest

/-- The number that digits of a base denote, of which there must be one. -/
def nat? (base : Nat) (digits : List Char) : Option Nat :=
  if digits.isEmpty then none else natFrom? base 0 digits

/-! ### Writing -/

/-- A digit, with letters that count on from `ten`. -/
def digitChar (ten : Char) (digit : Nat) : Char :=
  if digit < 10 then Char.ofNat ('0'.toNat + digit) else Char.ofNat (ten.toNat + (digit - 10))

/-- The last `width` digits of a number in base sixteen. -/
def hexDigits (ten : Char) : Nat → Nat → List Char
  | 0, _ => []
  | width + 1, number => hexDigits ten width (number / 16) ++ [digitChar ten (number % 16)]

end ShallowParse.Text
