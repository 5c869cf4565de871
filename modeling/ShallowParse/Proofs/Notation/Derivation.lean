/-
This file defines the derivations of the rule notation: for each rule of its
grammar a type of trees, the lexemes a tree derives and the value it denotes.

  line        := (label ':')? ('{' alternation '}')?, not empty
  alternation := sequence ('|' sequence)*
  sequence    := term+
  term        := atom quantifier*
  atom        := tag class | '(' alternation ')'
-/

import ShallowParse.Notation.Line

namespace ShallowParse

/-! ### Quantifiers -/

inductive Quantifier where
  | question
  | star
  | plus
  | bounds (least : Nat) (most : Option Nat)

namespace Quantifier

def lexeme : Quantifier → Lexeme
  | question => .question
  | star => .star
  | plus => .plus
  | bounds least most => .bounds least most

/-- What a quantifier makes of the pattern before it. -/
def quantified (body : Pattern) : Quantifier → Pattern
  | question => .repetition body 0 (some 1)
  | star => .repetition body 0 none
  | plus => .repetition body 1 none
  | bounds least most => .repetition body least most

end Quantifier

/-! ### Trees -/

/-- A row of one item or more. -/
inductive Row (Item : Type) where
  | last (item : Item)
  | more (item : Item) (rest : Row Item)

mutual

/-- The derivation of an atom. A tag class comes with the pattern its body is read as. -/
inductive AtomTree where
  | tagClass (body : String) (test : Pattern) (readable : TagClass.read body = .ok test)
  | group (inner : Row (Row TermTree))

/-- The derivation of a term. -/
inductive TermTree where
  | quantified (atom : AtomTree) (quantifiers : List Quantifier)

end

/-- The derivation of a sequence. -/
abbrev SequenceTree := Row TermTree

/-- The derivation of an alternation. -/
abbrev AlternationTree := Row SequenceTree

/-- The derivation of a line, which has a label or a body. -/
structure LineTree where
  label : Option String
  body : Option AlternationTree
  isPresent : label.isSome || body.isSome

/-! ### Lexemes -/

mutual

def AtomTree.lexemes : AtomTree → List Lexeme
  | .tagClass body _ _ => [.tagClass body]
  | .group inner => .openParen :: AlternationTree.lexemes inner ++ [.closeParen]

def TermTree.lexemes : TermTree → List Lexeme
  | .quantified atom quantifiers => atom.lexemes ++ quantifiers.map Quantifier.lexeme

def SequenceTree.lexemes : SequenceTree → List Lexeme
  | .last term => term.lexemes
  | .more term rest => term.lexemes ++ SequenceTree.lexemes rest

def AlternationTree.lexemes : AlternationTree → List Lexeme
  | .last sequence => sequence.lexemes
  | .more sequence rest => sequence.lexemes ++ .bar :: AlternationTree.lexemes rest

end

/-- The lexemes of a label with its colon. -/
def labelLexemes : Option String → List Lexeme
  | none => []
  | some name => [.label name, .colon]

/-- The lexemes of a body with its braces. -/
def bodyLexemes : Option AlternationTree → List Lexeme
  | none => []
  | some body => .openBrace :: body.lexemes ++ [.closeBrace]

def LineTree.lexemes (line : LineTree) : List Lexeme :=
  labelLexemes line.label ++ bodyLexemes line.body

/-! ### Values -/

/-- Items one after the other; a single item is returned as it is. -/
def Pattern.row : List Pattern → Pattern
  | [item] => item
  | items => .sequence items

mutual

def AtomTree.value : AtomTree → Pattern
  | .tagClass _ test _ => test
  | .group inner => .anyOf (AlternationTree.alternatives inner)

/-- The items of a term in a sequence: a group that is a sequence contributes its own items unless
it is quantified. Quantifiers apply from left to right. -/
def TermTree.items : TermTree → List Pattern
  | .quantified (.group inner) [] => (Pattern.anyOf (AlternationTree.alternatives inner)).items
  | .quantified atom quantifiers => [quantifiers.foldl Quantifier.quantified atom.value]

def SequenceTree.items : SequenceTree → List Pattern
  | .last term => term.items
  | .more term rest => term.items ++ SequenceTree.items rest

def AlternationTree.alternatives : AlternationTree → List Pattern
  | .last sequence => [.row sequence.items]
  | .more sequence rest => .row sequence.items :: AlternationTree.alternatives rest

end

def SequenceTree.value (sequence : SequenceTree) : Pattern :=
  .row sequence.items

def AlternationTree.value (alternation : AlternationTree) : Pattern :=
  .anyOf alternation.alternatives

def LineTree.value (line : LineTree) : RuleLine :=
  ⟨line.label, line.body.map AlternationTree.value⟩

end ShallowParse
