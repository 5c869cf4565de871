/-
This file says which numbers a JSON text may hold: those that are well formed and
not too large.

A number is taken as an integer of 64 bits times a power of ten. Digits that the
integer has no place for are dropped. Before the point they still count for the
power of ten, after the point they do not count. The integer and the power are
rounded to double precision, and so is their product, which must be finite.
-/

import ShallowParse.Decimal.Double

namespace ShallowParse.JsonNumber

/-! ### Form -/

/-- The parts of an unsigned number. -/
structure Parts where
  whole : List Char
  fraction : List Char
  exponent : Int

/-- Whether digits may stand before the point: one digit at least, and no leading zero. -/
def isWhole : List Char → Bool
  | [] => false
  | ['0'] => true
  | first :: _ => first ≠ '0'

/-- The parts of a well-formed number. -/
def parts? (text : List Char) : Option Parts :=
  let whole := text.takeWhile Char.isDigit
  if !isWhole whole then none
  else
    match text.drop whole.length with
    | '.' :: rest =>
      let fraction := rest.takeWhile Char.isDigit
      if fraction.isEmpty then none
      else (Decimal.exponent? (rest.drop fraction.length)).map (⟨whole, fraction, ·⟩)
    | rest => (Decimal.exponent? rest).map (⟨whole, [], ·⟩)

/-! ### Size -/

/-- The greatest integer with 64 bits. -/
def integerLimit : Nat := Nat.pow 2 64 - 1

/-- Adds digits to an integer up to the first that it has no place for, and returns those left. -/
def takeDigits (integer : Nat) : List Char → Nat × List Char
  | [] => (integer, [])
  | digit :: rest =>
    let longer := 10 * integer + (digit.toNat - '0'.toNat)
    if longer ≤ integerLimit then takeDigits longer rest else (integer, digit :: rest)

/-- The integer and the power of ten that a number is taken as. -/
def Parts.scaled (parts : Parts) : Decimal :=
  let (integer, dropped) := takeDigits 0 parts.whole
  let (integer, ignored) := takeDigits integer parts.fraction
  ⟨integer, parts.exponent + dropped.length - (parts.fraction.length - ignored.length : Nat)⟩

/-- The greatest power of ten with double precision. -/
def powerLimit : Int := 308

/-- Whether the rounded product of a rounded integer and a rounded power of ten is infinite. -/
def isTooLarge (number : Decimal) : Bool :=
  if number.coefficient = 0 || number.exponent < 0 then false
  else if powerLimit < number.exponent then true
  else
    match Double.ofDecimal false ⟨number.coefficient, 0⟩,
      Double.ofDecimal false ⟨1, number.exponent⟩ with
    | .finite _ integer shift, .finite _ power powerShift =>
      let product := Double.Ratio.shift ⟨integer * power, 1⟩ 2 (shift + powerShift)
      !product.isBelow ⟨Decimal.overflowBound, 1⟩
    | _, _ => true

/-- Whether an unsigned number is well formed and not too large. -/
def isReadable (text : List Char) : Bool :=
  (parts? text).any fun parts => !isTooLarge parts.scaled

end ShallowParse.JsonNumber
