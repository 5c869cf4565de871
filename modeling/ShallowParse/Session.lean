/-
This file defines sessions: a chunker whose rules can be changed one by one and a
sentence that grows word by word. A change that fails leaves the session as it
was.
-/

import ShallowParse.Chunker
import ShallowParse.Format
import ShallowParse.Glossary
import ShallowParse.Tagged.Json
import ShallowParse.Tagged.Slashed

namespace ShallowParse

structure Session where
  chunker : Chunker
  tokens : List Token

namespace Session

/-- A session with the reference grammar and no words. -/
def start : Except GrammarError Session :=
  Reference.grammar.map fun grammar => ⟨⟨grammar, Tree.defaultLabel⟩, []⟩

/-! ### Rules -/

def rules (session : Session) : List Rule :=
  session.chunker.grammar.rules

def setRootLabel (session : Session) (label : String) : Session :=
  { session with chunker := { session.chunker with rootLabel := label } }

/-- Other rules in place of those of the session. -/
def setRules (session : Session) (rules : List Rule) : Except GrammarError Session :=
  (Grammar.ofRules rules).map fun grammar =>
    { session with chunker := { session.chunker with grammar := grammar } }

/-- The rules of a text combined with those of the session. -/
def combineRules (session : Session) (text : String) (combine : List Rule → List Rule) :
    Except GrammarError Session := do
  let rules ← (Rule.allOfText text).mapError .unreadable
  session.setRules (combine rules)

/-- The rules of a text in place of those of the session. -/
def replaceRules (session : Session) (text : String) : Except GrammarError Session :=
  session.combineRules text id

/-- The rules of a text after those of the session. -/
def appendRules (session : Session) (text : String) : Except GrammarError Session :=
  session.combineRules text (session.rules ++ ·)

/-- The rules of a text before those of the session. -/
def prependRules (session : Session) (text : String) : Except GrammarError Session :=
  session.combineRules text (· ++ session.rules)

/-- The rules without the one at a place, if there is such a rule. -/
def eraseRule (session : Session) (index : Nat) : Except GrammarError Session :=
  session.setRules (session.rules.eraseIdx index)

/-! ### Words -/

/-- Words after those of the session. -/
def append (session : Session) (tokens : List Token) : Session :=
  { session with tokens := session.tokens ++ tokens }

/-- The words of a line after those of the session. -/
def appendLine (session : Session) (line : String) : Except MalformedInput Session :=
  (Token.ofLine line).map session.append

/-- The words of a JSON array after those of the session. -/
def appendJson (session : Session) (text : String) : Except MalformedInput Session :=
  (Token.ofJsonText text).map session.append

def clear (session : Session) : Session :=
  { session with tokens := [] }

/-! ### Results -/

def tree (session : Session) : Except MalformedInput Tree :=
  session.chunker.chunk session.tokens

/-- The tree and every phrase that a rule built. -/
def traced (session : Session) : Except MalformedInput (Tree × List Application) :=
  session.chunker.chunkTraced session.tokens

def glossary (session : Session) : List (String × String) :=
  Glossary.ofTokens session.tokens

end Session

end ShallowParse
