/-
This file describes the part-of-speech tags of the Penn Treebank.
-/

import ShallowParse.Text.Sorted
import ShallowParse.Tree

namespace ShallowParse.Glossary

/-- The tags with their descriptions. -/
def entries : List (String × String) := [
  ("CC", "Coordinating conjunction"),
  ("CD", "Cardinal number"),
  ("DT", "Determiner"),
  ("EX", "Existential there"),
  ("FW", "Foreign word"),
  ("IN", "Preposition or subordinating conjunction"),
  ("JJ", "Adjective"),
  ("JJR", "Adjective, comparative"),
  ("JJS", "Adjective, superlative"),
  ("LS", "List item marker"),
  ("MD", "Modal"),
  ("NN", "Noun, singular or mass"),
  ("NNS", "Noun, plural"),
  ("NNP", "Proper noun, singular"),
  ("NNPS", "Proper noun, plural"),
  ("PDT", "Predeterminer"),
  ("POS", "Possessive ending"),
  ("PRP", "Personal pronoun"),
  ("PRP$", "Possessive pronoun"),
  ("RB", "Adverb"),
  ("RBR", "Adverb, comparative"),
  ("RBS", "Adverb, superlative"),
  ("RP", "Particle"),
  ("SYM", "Symbol"),
  ("TO", "to"),
  ("UH", "Interjection"),
  ("VB", "Verb, base form"),
  ("VBD", "Verb, past tense"),
  ("VBG", "Verb, gerund or present participle"),
  ("VBN", "Verb, past participle"),
  ("VBP", "Verb, non-3rd person singular present"),
  ("VBZ", "Verb, 3rd person singular present"),
  ("WDT", "Wh-determiner"),
  ("WP", "Wh-pronoun"),
  ("WP$", "Possessive wh-pronoun"),
  ("WRB", "Wh-adverb"),
  (".", "Sentence-final punctuation"),
  (",", "Comma"),
  (":", "Colon or ellipsis"),
  ("``", "Opening quotation mark"),
  ("''", "Closing quotation mark"),
  ("(", "Left bracket"),
  (")", "Right bracket")]

/-- What is said of a tag without a description. -/
def unknown : String := "Unknown tag"

def describe (tag : String) : String :=
  (entries.lookup tag).getD unknown

/-- The tags of a sentence, each once and in increasing order, with their descriptions. -/
def ofTokens (tokens : List Token) : List (String × String) :=
  (Text.sorted (tokens.map Token.tag)).map fun tag => (tag, describe tag)

end ShallowParse.Glossary
