/-
This file proves which number decimal digits are read as, and that a number is written
with digits.
-/

import ShallowParse.Pattern.Printer
import ShallowParse.Text.Digits

namespace ShallowParse

namespace Text

/-- A decimal digit denotes its distance from zero. -/
theorem digit?_ten {char : Char} (isDigit : char.isDigit = true) :
    digit? 10 char = some (char.toNat - '0'.toNat) := by
  have inRange : 48 ≤ char.toNat ∧ char.toNat ≤ 57 := Char.isDigit_iff_toNat.mp isDigit
  have isZero : '0'.toNat = 48 := rfl
  rw [digit?, digitValue?, if_pos isDigit, Option.filter_some, if_pos]
  exact decide_eq_true (by omega)

/-- Decimal digits denote the number they are read as one after the other. -/
theorem natFrom?_ten {digits : List Char} (areDigits : ∀ char ∈ digits, char.isDigit = true)
    (number : Nat) : natFrom? 10 number digits = some (Nat.ofDigitChars 10 digits number) := by
  induction digits generalizing number with
  | nil => rfl
  | cons char rest inductionHypothesis =>
    obtain ⟨isDigit, areRest⟩ := List.forall_mem_cons.mp areDigits
    rw [natFrom?, digit?_ten isDigit, Option.bind_some, inductionHypothesis areRest,
      Nat.ofDigitChars_cons]

end Text

namespace Pattern

theorem digits_eq (number : Nat) : digits number = Nat.toDigits 10 number :=
  Nat.toList_repr

theorem isDigit_of_mem_digits (number : Nat) : ∀ char ∈ digits number, char.isDigit = true := by
  intro char member
  rw [digits_eq] at member
  exact Nat.isDigit_of_mem_toDigits (by decide) (by decide) member

theorem digits_ne_nil (number : Nat) : digits number ≠ [] := by
  rw [digits_eq]
  exact Nat.toDigits_ne_nil

end Pattern

end ShallowParse
