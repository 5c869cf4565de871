/-
This file writes a pattern in rule notation, for instance `<DT>?<JJ.*>*<NN.*>+`.

A test of one symbol stands between angle brackets, and so does an alternation
of such tests, its alternatives parted by bars. Every other pattern that needs
to be held together stands between parentheses: the body of a repetition, and
an alternation or a sequence that is an item of a sequence. An alternation
inside an alternation is written without parentheses.
-/

import ShallowParse.Pattern
import ShallowParse.Text.Blank

namespace ShallowParse.Pattern

/-! ### Tests of one symbol -/

/-- The characters that would mean something in a regular expression but are refused between
angle brackets unless a backslash stands before them. -/
def isMetachar (char : Char) : Bool :=
  ['*', '+', '?', '[', ']', '{', '}', '(', ')', '^'].contains char

/-- Whether a character of a tag is written with a backslash before it. -/
def needsEscape (char : Char) : Bool :=
  ['\\', '<', '>', '|'].contains char || Text.isBlank char || isMetachar char

/-- A tag as it stands between angle brackets. -/
def escaped (tag : List Char) : List Char :=
  tag.flatMap fun char => if needsEscape char then ['\\', char] else [char]

/-- A pattern that tests one symbol against one tag or one stem. -/
def isTest : Pattern → Bool
  | exactly _ | startingWith _ => true
  | _ => false

/-- A pattern that fits between one pair of angle brackets. -/
def isClass : Pattern → Bool
  | exactly _ | startingWith _ => true
  | alternation alternatives => !alternatives.isEmpty && alternatives.all isTest
  | _ => false

/-- What stands between the angle brackets for a test of one symbol. -/
def testBody : Pattern → List Char
  | exactly tag => escaped tag.toList
  | startingWith stem => escaped stem.toList ++ ['.', '*']
  | _ => []

/-- What stands between the angle brackets for a class. -/
def classBody : Pattern → List Char
  | alternation alternatives => ['|'].intercalate (alternatives.map testBody)
  | test => testBody test

/-! ### Quantifiers -/

def digits (number : Nat) : List Char :=
  (toString number).toList

/-- The quantifier of a repetition in its shortest spelling. -/
def quantifier (least : Nat) : Option Nat → List Char
  | none =>
    if least = 0 then ['*']
    else if least = 1 then ['+']
    else '{' :: digits least ++ [',', '}']
  | some most =>
    if least = 0 ∧ most = 1 then ['?']
    else if least = most then '{' :: digits least ++ ['}']
    else '{' :: digits least ++ ',' :: digits most ++ ['}']

/-! ### Patterns -/

/-- Whether an item of a sequence is held together by brackets of its own. -/
def isHeldItem : Pattern → Bool
  | alternation _ | sequence _ => true
  | _ => false

/-- A pattern held together, given its text without brackets. -/
def held (pattern : Pattern) (loose : List Char) : List Char :=
  if pattern.isClass then '<' :: pattern.classBody ++ ['>'] else '(' :: loose ++ [')']

mutual

/-- The text of a pattern that nothing around it forces together. -/
def loose : Pattern → List Char
  | exactly tag => held (exactly tag) []
  | startingWith stem => held (startingWith stem) []
  | alternation alternatives =>
    if (alternation alternatives).isClass then held (alternation alternatives) []
    else ['|'].intercalate (looseAll alternatives)
  | repetition body least most => held body (loose body) ++ quantifier least most
  | sequence items => sequenceText items

def looseAll : List Pattern → List (List Char)
  | [] => []
  | pattern :: patterns => loose pattern :: looseAll patterns

def sequenceText : List Pattern → List Char
  | [] => []
  | item :: items =>
    (if item.isHeldItem then held item (loose item) else loose item) ++ sequenceText items

end

/-- A pattern in rule notation. -/
def written (pattern : Pattern) : String :=
  String.ofList pattern.loose

instance : ToString Pattern := ⟨written⟩

end ShallowParse.Pattern
