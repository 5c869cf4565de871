/-
This file turns a pattern over symbols into a regular expression over the text
of the symbols, once as an expression to match with and once as its source text.
It also says how large and how deeply nested that expression is, since a pattern
beyond certain limits is refused.
-/

import ShallowParse.Pattern
import ShallowParse.Regex.Size
import ShallowParse.Symbols

namespace ShallowParse.Pattern

/-! ### The expression -/

mutual

/-- The expression that matches the texts of what a pattern matches. -/
def regex : Pattern → Regex
  | exactly tag => .literal (Symbol.bracketed tag)
  | startingWith stem =>
    .inOrder [.literal ('<' :: Symbol.encode stem), .star (.otherThan '>'), .char '>']
  | alternation alternatives => .either (regexAll alternatives)
  | repetition body least most => .repetition (regex body) least most
  | sequence items => .inOrder (regexAll items)

def regexAll : List Pattern → List Regex
  | [] => []
  | pattern :: patterns => regex pattern :: regexAll patterns

end

/-! ### The source text -/

/-- The characters with a meaning of their own in the source text of an expression. -/
def regexSigns : List Char :=
  ['\\', '.', '+', '*', '?', '(', ')', '|', '[', ']', '{', '}', '^', '$', '#', '&', '-', '~']

/-- A text as an expression that matches it. -/
def quotedSource (text : List Char) : List Char :=
  text.flatMap fun char => if regexSigns.contains char then ['\\', char] else [char]

/-- The bounds of a repetition. -/
def boundsSource (least : Nat) (most : Option Nat) : List Char :=
  let upper := match most with
    | some most => (toString most).toList
    | none => []
  '{' :: (toString least).toList ++ ',' :: upper ++ ['}']

def group (inner : List Char) : List Char :=
  "(?:".toList ++ inner ++ [')']

mutual

/-- The source text of the expression for a pattern. -/
def source : Pattern → List Char
  | exactly tag => '<' :: quotedSource (Symbol.encode tag) ++ ['>']
  | startingWith stem => '<' :: quotedSource (Symbol.encode stem) ++ "[^>]*>".toList
  | alternation alternatives => group (['|'].intercalate (sourceAll alternatives))
  | repetition body least most => group (source body) ++ boundsSource least most
  | sequence items => (sourceAll items).flatten

def sourceAll : List Pattern → List (List Char)
  | [] => []
  | pattern :: patterns => source pattern :: sourceAll patterns

end

/-- The source text of the expression for a pattern, which matches only at the beginning. -/
def regexSource (pattern : Pattern) : String :=
  String.ofList ('^' :: group pattern.source)

/-! ### Limits -/

/-- How deep the source text of a pattern nests, given whether it holds one item or several. Each
group, repetition, alternation, run of several items and set of characters is one level. -/
structure Nesting where
  items : Nat
  depth : Nat

namespace Nesting

def none : Nesting := ⟨0, 0⟩

/-- The run of the items of both. -/
def append (first second : Nesting) : Nesting :=
  ⟨first.items + second.items, max first.depth second.depth⟩

/-- The depth of a run, which is one more than that of its items if there are several. -/
def closedDepth (nesting : Nesting) : Nat :=
  if nesting.items ≤ 1 then nesting.depth else nesting.depth + 1

end Nesting

mutual

def nesting : Pattern → Nesting
  | exactly tag => ⟨(Symbol.bracketed tag).length, 0⟩
  | startingWith stem => ⟨(Symbol.bracketed stem).length + 1, 2⟩
  | alternation alternatives =>
    ⟨1, deepest alternatives + if alternatives.length ≤ 1 then 1 else 2⟩
  | repetition body _ _ => ⟨1, (nesting body).closedDepth + 2⟩
  | sequence items => nestingOfRun items

def deepest : List Pattern → Nat
  | [] => 0
  | pattern :: patterns => max (nesting pattern).closedDepth (deepest patterns)

def nestingOfRun : List Pattern → Nesting
  | [] => Nesting.none
  | pattern :: patterns => (nesting pattern).append (nestingOfRun patterns)

end

/-- The depth of the whole source text: the run of the anchor and of the group around it all. -/
def depth (pattern : Pattern) : Nat :=
  pattern.nesting.closedDepth + 2

/-- The greatest depth of a source text. -/
def depthLimit : Nat := 250

mutual

/-- Whether the bounds of every repetition are in order. -/
def hasOrderedBounds : Pattern → Bool
  | exactly _ | startingWith _ => true
  | alternation alternatives => haveOrderedBounds alternatives
  | repetition body least most => most.all (least ≤ ·) && hasOrderedBounds body
  | sequence items => haveOrderedBounds items

def haveOrderedBounds : List Pattern → Bool
  | [] => true
  | pattern :: patterns => hasOrderedBounds pattern && haveOrderedBounds patterns

end

/-- The greatest number of bytes of an expression made ready for matching. -/
def sizeLimit : Nat := 10 * Nat.pow 2 20

/-- Why a pattern has no expression. -/
inductive ExpressionError where
  | crossedBounds
  | tooDeep
  | tooLarge
deriving DecidableEq

/-- What a message says of an error. The expression and the place in it are left out. -/
def ExpressionError.message : ExpressionError → String
  | crossedBounds => "Repetition bounds are out of order."
  | tooDeep => "Pattern nests more than " ++ toString depthLimit ++ " levels deep."
  | tooLarge => "Compiled regex exceeds size limit of " ++ toString sizeLimit ++ " bytes."

/-- The expression that matches what a pattern matches, within the limits. -/
def compile (pattern : Pattern) : Except ExpressionError Regex :=
  if !pattern.hasOrderedBounds then .error .crossedBounds
  else if depthLimit < pattern.depth then .error .tooDeep
  else if sizeLimit < pattern.regex.size then .error .tooLarge
  else .ok pattern.regex

end ShallowParse.Pattern
