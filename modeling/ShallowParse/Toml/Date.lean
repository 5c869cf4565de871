/-
This file reads dates and times of day, together or alone, and writes them in one
form: a date, the letter `T`, a time without the zeros at the end of its fraction,
and the distance from universal time. Where they stand between quotes, hours and
distances may be a little greater than where they stand alone, and a date may have
a distance without a time.
-/

import ShallowParse.Text.Digits

namespace ShallowParse.Toml

/-! ### Parts -/

/-- The greatest hour, and the greatest hours and minutes of a distance from universal time. -/
structure TimeLimits where
  hour : Nat
  offsetHour : Nat
  offsetMinute : Nat
  /-- Whether a distance may follow a date without a time. -/
  offsetAlone : Bool

/-- The limits of a time that stands alone. -/
def bareLimits : TimeLimits := ⟨23, 23, 59, false⟩

/-- The limits of a time between quotes. -/
def quotedLimits : TimeLimits := ⟨24, 99, 99, true⟩

/-- A number of two digits up to a limit. -/
def twoDigits? (least most : Nat) (first second : Char) : Option (List Char) :=
  (Text.nat? 10 [first, second]).bind fun number =>
    if least ≤ number && number ≤ most then some [first, second] else none

def isLeapYear (year : Nat) : Bool :=
  year % 4 = 0 && (year % 100 ≠ 0 || year % 400 = 0)

/-- The number of days of a month. -/
def daysOfMonth (year month : Nat) : Nat :=
  if month = 2 then if isLeapYear year then 29 else 28
  else if [4, 6, 9, 11].contains month then 30
  else 31

/-- A date, and what follows it. -/
def date? : List Char → Option (List Char × List Char)
  | y₁ :: y₂ :: y₃ :: y₄ :: '-' :: m₁ :: m₂ :: '-' :: d₁ :: d₂ :: rest => do
    let year ← Text.nat? 10 [y₁, y₂, y₃, y₄]
    let monthText ← twoDigits? 1 12 m₁ m₂
    let month ← Text.nat? 10 monthText
    let dayText ← twoDigits? 1 (daysOfMonth year month) d₁ d₂
    return ([y₁, y₂, y₃, y₄] ++ '-' :: monthText ++ '-' :: dayText, rest)
  | _ => none

/-- The digits of a fraction of a second that are kept: up to nine, without zeros at the end. -/
def keptFraction (digits : List Char) : List Char :=
  match ((digits.take 9).reverse.dropWhile (· == '0')).reverse with
  | [] => []
  | kept => '.' :: kept

/-- The fraction of a second that a text may begin with, and what follows it. -/
def fraction? : List Char → Option (List Char × List Char)
  | '.' :: rest =>
    let digits := rest.takeWhile Char.isDigit
    if digits.isEmpty then none else some (keptFraction digits, rest.drop digits.length)
  | rest => some ([], rest)

/-- A time of day, and what follows it. A minute may have a leap second. -/
def time? (limits : TimeLimits) : List Char → Option (List Char × List Char)
  | h₁ :: h₂ :: ':' :: m₁ :: m₂ :: ':' :: s₁ :: s₂ :: rest => do
    let hour ← twoDigits? 0 limits.hour h₁ h₂
    let minute ← twoDigits? 0 59 m₁ m₂
    let second ← twoDigits? 0 60 s₁ s₂
    let (fraction, rest) ← fraction? rest
    return (hour ++ ':' :: minute ++ ':' :: second ++ fraction, rest)
  | _ => none

/-- The number of minutes of a day. -/
def dayLength : Nat := 24 * 60

/-- A number with two digits. -/
def padded (number : Nat) : List Char :=
  [Text.digitChar 'a' (number / 10), Text.digitChar 'a' (number % 10)]

/-- A distance from universal time of so many minutes, at most one day. No distance counts as one
ahead. -/
def shift? (sign : Char) (minutes : Nat) : Option (List Char) :=
  if dayLength < minutes then none
  else
    let clock := padded (minutes / 60) ++ ':' :: padded (minutes % 60)
    if sign = '+' ∨ (sign = '-' ∧ minutes = 0) then some ('+' :: clock)
    else if sign = '-' then some ('-' :: clock)
    else none

/-- The distance from universal time. -/
def offset? (limits : TimeLimits) : List Char → Option (List Char)
  | [] => some []
  | ['Z'] => some ['Z']
  | ['z'] => some ['Z']
  | [sign, h₁, h₂, ':', m₁, m₂] => do
    let hour ← Text.nat? 10 [h₁, h₂]
    let minute ← Text.nat? 10 [m₁, m₂]
    if hour ≤ limits.offsetHour ∧ minute ≤ limits.offsetMinute then shift? sign (60 * hour + minute)
    else none
  | _ => none

/-! ### Dates and times -/

/-- What follows a date: nothing, or a time of day with or without an offset, or an offset alone
where the limits allow it. -/
def afterDate? (limits : TimeLimits) : List Char → Option (List Char)
  | [] => some []
  | sign :: rest =>
    if ['T', 't', ' '].contains sign then do
      let (time, rest) ← time? limits rest
      return 'T' :: time ++ (← offset? limits rest)
    else if limits.offsetAlone then offset? limits (sign :: rest)
    else none

/-- A date, a time of day or both, in one form. -/
def dateTime? (limits : TimeLimits) (text : List Char) : Option (List Char) :=
  match date? text with
  | some (date, rest) => (afterDate? limits rest).map (date ++ ·)
  | none =>
    match time? limits text with
    | some (time, []) => some time
    | _ => none

end ShallowParse.Toml
