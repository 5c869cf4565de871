/-
This file says which texts are lexemes, and of which value. It names the characters that
may stand in a class or a label and the numbers that digits denote, whatever surrounds the
lexeme and however it is looked for.
-/

import ShallowParse.Notation.Lexer
import ShallowParse.Proofs.Text.Digits

namespace ShallowParse

namespace Lexeme

/-! ### Parts of lexemes -/

/-- Whether characters may stand between the brackets of a class. Those with a meaning of their own
follow a backslash, and no line ends there. -/
inductive IsClassText : List Char → Prop where
  | nil : IsClassText []
  | plain {char : Char} {rest : List Char} (isPlain : char ∉ ['\\', '<', '>', '\n'])
    (others : IsClassText rest) : IsClassText (char :: rest)
  | escape {char : Char} {rest : List Char} (noBreak : char ≠ '\n') (others : IsClassText rest) :
    IsClassText ('\\' :: char :: rest)

theorem IsClassText.append {first second : List Char} (ofFirst : IsClassText first)
    (ofSecond : IsClassText second) : IsClassText (first ++ second) := by
  induction ofFirst with
  | nil => exact ofSecond
  | plain isPlain _ inductionHypothesis => exact .plain isPlain inductionHypothesis
  | escape noBreak _ inductionHypothesis => exact .escape noBreak inductionHypothesis

theorem IsClassText.noBreak {text : List Char} (isClassText : IsClassText text) : '\n' ∉ text := by
  induction isClassText with
  | nil => exact List.not_mem_nil
  | @plain char rest isPlain _ inductionHypothesis =>
    refine List.not_mem_cons_of_ne_of_not_mem ?_ inductionHypothesis
    rintro rfl
    exact isPlain (by decide)
  | escape noBreak _ inductionHypothesis =>
    exact List.not_mem_cons_of_ne_of_not_mem (by decide)
      (List.not_mem_cons_of_ne_of_not_mem noBreak.symm inductionHypothesis)

/-- Whether characters are a label. -/
def isLabel : List Char → Bool
  | [] => false
  | first :: more => isLabelStart first && more.all isLabelChar

/-- Whether characters are decimal digits, at least one, which denote a number that bounds may hold. -/
structure IsBound (digits : List Char) (number : Nat) : Prop where
  notEmpty : digits ≠ []
  areDigits : ∀ char ∈ digits, char.isDigit = true
  denotes : Nat.ofDigitChars 10 digits 0 = number
  small : number ≤ boundLimit

theorem isBound_digits {number : Nat} (small : number ≤ boundLimit) :
    IsBound (Pattern.digits number) number := by
  refine ⟨Pattern.digits_ne_nil number, Pattern.isDigit_of_mem_digits number, ?_, small⟩
  rw [Pattern.digits_eq, Nat.ofDigitChars_ten_toDigits]

/-- Digits are read as a bound just if they are one. -/
theorem bound?_eq_some_iff {digits : List Char} (areDigits : ∀ char ∈ digits, char.isDigit = true)
    {number : Nat} : bound? digits = some number ↔ IsBound digits number := by
  rw [bound?, Option.filter_eq_some_iff, Text.nat?, Text.natFrom?_ten areDigits]
  constructor
  · rintro ⟨found, small⟩
    split at found
    · cases found
    · rename_i notEmpty
      exact ⟨by simpa using notEmpty, areDigits, Option.some.inj found, of_decide_eq_true small⟩
  · rintro ⟨notEmpty, _, denotes, small⟩
    exact ⟨by rw [if_neg (by simpa using notEmpty), denotes], decide_eq_true small⟩

/-! ### Lexemes -/

/-- The character of a lexeme that is written with one character. -/
def char? : Lexeme → Option Char
  | colon => some ':'
  | openBrace => some '{'
  | closeBrace => some '}'
  | openParen => some '('
  | closeParen => some ')'
  | bar => some '|'
  | question => some '?'
  | star => some '*'
  | plus => some '+'
  | tagClass _ | label _ | bounds _ _ => none

/-- Whether a lexeme is written with a text. A class is what stands between its brackets, a label is
its text, and bounds are the numbers that their digits denote. -/
inductive HasText : Lexeme → List Char → Prop where
  | tagClass {body : List Char} (isClassText : IsClassText body) :
    HasText (tagClass (String.ofList body)) ('<' :: body ++ ['>'])
  | label {name : List Char} (isLabel : isLabel name = true) :
    HasText (label (String.ofList name)) name
  | exactBounds {digits : List Char} {count : Nat} (isBound : IsBound digits count) :
    HasText (bounds count (some count)) ('{' :: digits ++ ['}'])
  | lowerBound {digits : List Char} {least : Nat} (isBound : IsBound digits least) :
    HasText (bounds least none) ('{' :: digits ++ [',', '}'])
  | bothBounds {digits others : List Char} {least most : Nat} (isLeast : IsBound digits least)
    (isMost : IsBound others most) :
    HasText (bounds least (some most)) ('{' :: digits ++ ',' :: others ++ ['}'])
  | char {lexeme : Lexeme} {char : Char} (isChar : lexeme.char? = some char) :
    HasText lexeme [char]

theorem HasText.ne_nil {lexeme : Lexeme} {text : List Char} (hasText : lexeme.HasText text) :
    text ≠ [] := by
  cases hasText with
  | label isLabel =>
    rintro rfl
    cases isLabel
  | _ => exact List.cons_ne_nil _ _

end Lexeme

end ShallowParse
