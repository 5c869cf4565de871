/-
This file matches a pattern at a place in a sequence of symbols. Each symbol
begins with the only `<` of its text, so the number of symbols of a match is the
number of `<` in it.
-/

import ShallowParse.Pattern.Expression
import ShallowParse.Regex.Search

namespace ShallowParse

/-- A pattern made ready for matching. -/
structure Matcher where
  regex : Regex

namespace Matcher

/-- Makes a pattern ready for matching, unless it is beyond the limits. -/
def ofPattern (pattern : Pattern) : Except Pattern.ExpressionError Matcher :=
  pattern.compile.map Matcher.mk

/-- The number of symbols of the preferred match that begins exactly at a place, or `none` where
there is no match or the match is empty. -/
def matchAt (matcher : Matcher) (symbols : SymbolText) (index : Nat) : Option Nat :=
  let text := symbols.suffix index
  match matcher.regex.matchLength? text with
  | none => none
  | some length =>
    let consumed := (text.take length).count '<'
    if consumed = 0 then none else some consumed

end Matcher

end ShallowParse
