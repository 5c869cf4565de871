/-
This file rounds decimal numbers to double precision and writes numbers of double
precision. Rounding is to the nearest number, and of two equally near ones to the
one with the even mantissa. A number is written with the fewest digits that are
rounded to it, and among these with the digits nearest to it, the greater ones of
two equally near.
-/

import ShallowParse.Decimal

namespace ShallowParse

/-- A number of double precision. -/
inductive Double where
  /-- The number `mantissa * 2 ^ exponent` with a sign. -/
  | finite (isNegative : Bool) (mantissa : Nat) (exponent : Int)
  | infinite (isNegative : Bool)
  | notANumber
deriving DecidableEq

namespace Double

/-! ### Ratios -/

/-- The ratio of two natural numbers, the second of which is not 0. -/
structure Ratio where
  numerator : Nat
  denominator : Nat

/-- The ratio times a power of a base. -/
def Ratio.shift (ratio : Ratio) (base : Nat) (power : Int) : Ratio :=
  ⟨ratio.numerator * Nat.pow base power.toNat, ratio.denominator * Nat.pow base (-power).toNat⟩

def Ratio.floor (ratio : Ratio) : Nat :=
  ratio.numerator / ratio.denominator

/-- Whether the first ratio is less than the second. -/
def Ratio.isBelow (first second : Ratio) : Bool :=
  first.numerator * second.denominator < second.numerator * first.denominator

/-- The nearest natural number, the even one of two. -/
def Ratio.rounded (ratio : Ratio) : Nat :=
  let below := ratio.floor
  let rest := 2 * (ratio.numerator % ratio.denominator)
  if rest < ratio.denominator || (rest = ratio.denominator && below % 2 = 0) then below
  else below + 1

/-- The greatest power of a base, between two and fifty, that is not above a ratio, given a power
that is off by one at most. -/
def Ratio.leadingPower (ratio : Ratio) (base : Nat) (guess : Int) : Int :=
  if ratio.isBelow (Ratio.shift ⟨1, 1⟩ base guess) then guess - 1
  else if ratio.isBelow (Ratio.shift ⟨1, 1⟩ base (guess + 1)) then guess
  else guess + 1

/-! ### Rounding -/

/-- The least exponent of a number. -/
def leastExponent : Int := -1074

/-- The least mantissa of a number whose exponent is not the least one. -/
def leastMantissa : Nat := Nat.pow 2 52

/-- A decimal number with a sign, rounded. The mantissa is below twice the least one: a number that
is rounded up to a power of two takes the exponent that follows. -/
def ofDecimal (isNegative : Bool) (number : Decimal) : Double :=
  if number.overflows then infinite isNegative
  else if number.coefficient = 0 || Decimal.digitCount number.coefficient + number.exponent < -330
  then finite isNegative 0 leastExponent
  else
    let ratio := Ratio.shift ⟨number.coefficient, 1⟩ 10 number.exponent
    let guess : Int := ratio.numerator.log2 - ratio.denominator.log2
    let exponent := max leastExponent (ratio.leadingPower 2 guess - 52)
    let mantissa := (ratio.shift 2 (-exponent)).rounded
    if mantissa = 2 * leastMantissa then finite isNegative leastMantissa (exponent + 1)
    else finite isNegative mantissa exponent

def isZero : Double → Bool
  | finite _ mantissa _ => mantissa = 0
  | _ => false

/-! ### The fewest digits -/

/-- The numbers that are rounded to a mantissa and exponent lie between these two. -/
def bounds (mantissa : Nat) (exponent : Int) : Ratio × Ratio :=
  let below := if mantissa = leastMantissa && leastExponent < exponent then 1 else 2
  (Ratio.shift ⟨4 * mantissa - below, 4⟩ 2 exponent, Ratio.shift ⟨4 * mantissa + 2, 4⟩ 2 exponent)

/-- Whether a ratio is rounded to a mantissa and exponent. -/
def isRoundedTo (mantissa : Nat) (exponent : Int) (ratio : Ratio) : Bool :=
  let (low, high) := bounds mantissa exponent
  if mantissa % 2 = 0 then !ratio.isBelow low && !high.isBelow ratio
  else low.isBelow ratio && ratio.isBelow high

/-- Whether the next natural number is at least as near to a ratio as the one below it. -/
def Ratio.isUpperHalf (ratio : Ratio) : Bool :=
  ratio.denominator ≤ 2 * (ratio.numerator % ratio.denominator)

/-- Of the two numbers with so many digits between which a number lies, the one that is rounded to
it. If both are it is the nearer one, and the greater one if none is nearer. -/
def withDigits? (mantissa : Nat) (exponent : Int) (lead : Int) (count : Nat) : Option Decimal :=
  let power := lead + 1 - count
  let scaled := (Ratio.shift ⟨mantissa, 1⟩ 2 exponent).shift 10 (-power)
  let candidates :=
    if scaled.isUpperHalf then [scaled.floor + 1, scaled.floor]
    else [scaled.floor, scaled.floor + 1]
  let fits (coefficient : Nat) : Bool :=
    isRoundedTo mantissa exponent (Ratio.shift ⟨coefficient, 1⟩ 10 power)
  (candidates.find? fits).map fun coefficient =>
    if coefficient = Nat.pow 10 count then ⟨1, power + count⟩ else ⟨coefficient, power⟩

/-- The decimal number with the fewest digits that is rounded to a mantissa, which is not 0, and
exponent. Seventeen digits always suffice. -/
def shortest (mantissa : Nat) (exponent : Int) : Decimal :=
  let ratio := Ratio.shift ⟨mantissa, 1⟩ 2 exponent
  let guess : Int := Decimal.digitCount ratio.numerator - Decimal.digitCount ratio.denominator
  let lead := ratio.leadingPower 10 guess
  ((List.range 17).findSome? fun count => withDigits? mantissa exponent lead (count + 1)).getD
    ⟨0, 0⟩

/-! ### Writing -/

/-- A decimal number without an exponent, and without a point where it has no fraction. -/
def positional (number : Decimal) : String :=
  let digits := (toString number.coefficient).toList
  let zeros (count : Nat) : List Char := List.replicate count '0'
  if 0 ≤ number.exponent then String.ofList (digits ++ zeros number.exponent.toNat)
  else
    let places := (-number.exponent).toNat
    let padded := zeros (places + 1 - digits.length) ++ digits
    let whole := padded.length - places
    String.ofList (padded.take whole ++ '.' :: padded.drop whole)

def signText (isNegative : Bool) : String :=
  if isNegative then "-" else ""

/-- A number in the fewest digits. -/
def written : Double → String
  | finite isNegative mantissa exponent =>
    signText isNegative ++
      (if mantissa = 0 then "0" else positional (shortest mantissa exponent))
  | infinite isNegative => signText isNegative ++ "inf"
  | notANumber => "NaN"

end Double

end ShallowParse
