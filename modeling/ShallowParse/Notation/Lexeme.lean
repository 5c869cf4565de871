/-
This file defines the lexemes of the rule notation. A whole tag class such as
`<JJ.*>` or `<NP|PP>` is one lexeme, whose body is read separately. Outside the
angle brackets only labels, punctuation and quantifiers stand.
-/

namespace ShallowParse

inductive Lexeme where
  /-- What stands between angle brackets, backslashes included. -/
  | tagClass (body : String)
  | label (name : String)
  /-- A quantifier in braces; `most` is `none` where the upper bound is left out after a comma. -/
  | bounds (least : Nat) (most : Option Nat)
  | colon
  | openBrace
  | closeBrace
  | openParen
  | closeParen
  | bar
  | question
  | star
  | plus
deriving DecidableEq, Inhabited

namespace Lexeme

/-- How a message names a lexeme. -/
def described : Lexeme → String
  | tagClass body => "<" ++ body ++ ">"
  | label name => "label '" ++ name ++ "'"
  | bounds least none => "'\x7b" ++ toString least ++ ",\x7d'"
  | bounds least (some most) => "'\x7b" ++ toString least ++ "," ++ toString most ++ "\x7d'"
  | colon => "':'"
  | openBrace => "'\x7b'"
  | closeBrace => "'\x7d'"
  | openParen => "'('"
  | closeParen => "')'"
  | bar => "'|'"
  | question => "'?'"
  | star => "'*'"
  | plus => "'+'"

instance : ToString Lexeme := ⟨described⟩

end Lexeme

end ShallowParse
