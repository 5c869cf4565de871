/-
This file holds the blank characters and the two ways a text is cut at them:
into words, which are the maximal runs without a blank, and into lines, which
end at a line feed. A blank is a character with the Unicode property
White_Space. Control characters such as the unit separator do not have it, and
neither do the zero-width space and the byte order mark.
-/

namespace ShallowParse.Text

/-! ### Blank characters -/

/-- The blank characters outside the two runs `U+0009..U+000D` and `U+2000..U+200A`. -/
def scatteredBlanks : List Char :=
  [' ', '\u0085', '\u00a0', '\u1680', '\u2028', '\u2029', '\u202f', '\u205f', '\u3000']

/-- A character with the property White_Space. -/
def isBlank (char : Char) : Bool :=
  ('\u0009' ≤ char && char ≤ '\u000d') || ('\u2000' ≤ char && char ≤ '\u200a') ||
    scatteredBlanks.contains char

/-- A text of blanks only, which may be empty. -/
def isBlankText (text : String) : Bool :=
  text.toList.all isBlank

/-! ### Words -/

/-- The words of a text when `pending` holds the characters of the word being read, last first. -/
def wordsFrom (pending : List Char) : List Char → List (List Char)
  | [] => if pending.isEmpty then [] else [pending.reverse]
  | char :: rest =>
    if isBlank char then
      if pending.isEmpty then wordsFrom [] rest else pending.reverse :: wordsFrom [] rest
    else wordsFrom (char :: pending) rest

/-- The maximal runs without a blank, in order. -/
def words (text : String) : List String :=
  (wordsFrom [] text.toList).map String.ofList

/-! ### Lines -/

/-- A line without the one carriage return that may end it. -/
def dropReturn (reversedLine : List Char) : List Char :=
  match reversedLine with
  | '\r' :: rest => rest.reverse
  | line => line.reverse

/-- The lines of a text when `pending` holds the line being read, last character first. -/
def linesFrom (pending : List Char) : List Char → List (List Char)
  | [] => if pending.isEmpty then [] else [pending.reverse]
  | char :: rest =>
    if char = '\n' then dropReturn pending :: linesFrom [] rest
    else linesFrom (char :: pending) rest

/-- The lines of a text. A line feed ends a line, and so does a carriage return before a line
feed; nothing after the last line feed is not a line. -/
def lines (text : String) : List String :=
  (linesFrom [] text.toList).map String.ofList

end ShallowParse.Text
