/-
This file holds the reference grammar for English: noun phrases first, then
prepositional phrases and verb phrases, which are built over noun phrases.
-/

import ShallowParse.Grammar

namespace ShallowParse.Reference

/-- An optional determiner, any adjectives, at least one noun. -/
def nounPhrase : Rule :=
  ⟨"NP", .inOrder [.optional (.exactly "DT"), .zeroOrMore (.startingWith "JJ"),
    .oneOrMore (.startingWith "NN")]⟩

/-- A preposition and a noun phrase. -/
def prepositionalPhrase : Rule :=
  ⟨"PP", .inOrder [.exactly "IN", .exactly "NP"]⟩

/-- A verb and any noun phrases and prepositional phrases. -/
def verbPhrase : Rule :=
  ⟨"VP", .inOrder [.startingWith "VB", .zeroOrMore (.anyOf [.exactly "NP", .exactly "PP"])]⟩

def rules : List Rule :=
  [nounPhrase, prepositionalPhrase, verbPhrase]

/-- The reference grammar. -/
def grammar : Except GrammarError Grammar :=
  Grammar.ofRules rules

end ShallowParse.Reference
