/-
This file defines regular expressions over characters.
-/

namespace ShallowParse

inductive Regex where
  | empty
  | char (wanted : Char)
  /-- Any character but this one. -/
  | otherThan (refused : Char)
  | seq (first second : Regex)
  /-- The first is preferred to the second. -/
  | alt (first second : Regex)
  /-- As many copies as possible. -/
  | star (body : Regex)
  /-- As many copies as possible within the bounds; `most` is `none` without a bound. -/
  | repeated (body : Regex) (least : Nat) (most : Option Nat)
deriving DecidableEq, Inhabited

namespace Regex

/-- Whether the empty text is a match. -/
def isNullable : Regex → Bool
  | empty | star _ => true
  | char _ | otherThan _ => false
  | seq first second => first.isNullable && second.isNullable
  | alt first second => first.isNullable || second.isNullable
  | repeated body least _ => least == 0 || body.isNullable

/-- Whether no text but the empty one can be a match. -/
def matchesOnlyEmpty : Regex → Bool
  | empty => true
  | char _ | otherThan _ => false
  | seq first second | alt first second => first.matchesOnlyEmpty && second.matchesOnlyEmpty
  | star body => body.matchesOnlyEmpty
  | repeated body _ most => most == some 0 || body.matchesOnlyEmpty

end Regex

end ShallowParse
