/-
This file says which plain texts of a YAML document are not read as strings: the
spellings of null, of the truth values and of numbers.
-/

import ShallowParse.Decimal
import ShallowParse.Text.Digits

namespace ShallowParse.Yaml

/-! ### Names -/

def nullNames : List String := ["", "~", "null", "Null", "NULL"]

def truthNames : List String := ["true", "True", "TRUE", "false", "False", "FALSE"]

def infinityNames : List String := [".inf", ".Inf", ".INF"]

def notANumberNames : List String := [".nan", ".NaN", ".NAN"]

/-! ### Numbers -/

/-- A text without one sign that may stand before it. -/
def unsigned : List Char → List Char
  | '+' :: rest => rest
  | '-' :: rest => rest
  | text => text

/-- Digits behind a leading zero, which some readers take for an octal number. -/
def isZeroPadded (text : List Char) : Bool :=
  match unsigned text with
  | '0' :: digit :: rest => (digit :: rest).all Char.isDigit
  | _ => false

/-- The greatest number that is read behind the sign of a base: integers have 128 bits, one of
which is the sign of a negative number. -/
def integerLimit (isNegative : Bool) : Nat :=
  if isNegative then Nat.pow 2 127 else Nat.pow 2 128 - 1

/-- Whether digits denote a number within a limit. -/
def isWithin (limit base : Nat) (digits : List Char) : Bool :=
  (Text.nat? base digits).any (· ≤ limit)

/-- A number in base sixteen, eight or two. -/
def isPrefixedInteger (text : List Char) : Bool :=
  let limit := integerLimit (text.head? == some '-')
  match unsigned text with
  | '0' :: 'x' :: digits => isWithin limit 16 digits
  | '0' :: 'o' :: digits => isWithin limit 8 digits
  | '0' :: 'b' :: digits => isWithin limit 2 digits
  | _ => false

/-- A decimal number of finite size. -/
def isDecimal (text : List Char) : Bool :=
  (Decimal.ofChars? (unsigned text)).any fun number => !number.overflows

/-- Infinity with or without a sign, or the value that is not a number. -/
def isSpecialNumber (text : String) : Bool :=
  notANumberNames.contains text ||
    infinityNames.contains (String.ofList (unsigned text.toList))

/-! ### Texts -/

/-- Whether a plain text is read as something else than a string, or could be. -/
def isAmbiguous (text : String) : Bool :=
  nullNames.contains text || truthNames.contains text || isZeroPadded text.toList ||
    isPrefixedInteger text.toList || isDecimal text.toList || isSpecialNumber text

end ShallowParse.Yaml
