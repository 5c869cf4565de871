/-
This file builds the phrase tree of a tagged sentence.

At first the nodes are the words. Each rule then makes one pass over the nodes
from left to right: where its pattern matches, the nodes of the match become one
phrase with the rule's label, and the pass goes on after them. Where it does not,
the node stays. The next rule sees what the rules before it have left, so it can
match the labels of their phrases; no rule sees a phrase of its own pass. What is
left after the last rule are the children of the root.
-/

import ShallowParse.Grammar.Reference
import ShallowParse.Log
import ShallowParse.MalformedInput
import ShallowParse.Tree

namespace ShallowParse

/-! ### What a rule did -/

/-- A phrase that a rule built over the words from `start` up to `stop`. -/
structure Application where
  rule : Nat
  label : String
  start : Nat
  stop : Nat
  text : String
deriving DecidableEq

namespace Application

def message (application : Application) : String :=
  "rule " ++ toString (application.rule + 1) ++ " " ++ application.label ++ " [" ++
    toString application.start ++ ".." ++ toString application.stop ++ "] " ++ application.text

def logRecord (application : Application) : LogRecord :=
  ⟨.debug, "rule " ++ toString (application.rule + 1) ++ " (" ++ application.label ++
    ") chunked tokens " ++ toString application.start ++ ".." ++ toString application.stop⟩

end Application

/-! ### One rule -/

/-- The nodes a pass leaves and the phrases it built, in order. -/
structure Pass where
  nodes : List Node
  applications : List Application

namespace Pass

def empty : Pass := ⟨[], []⟩

/-- A node that stays comes before the rest of a pass. -/
def keep (node : Node) (rest : Pass) : Pass :=
  { rest with nodes := node :: rest.nodes }

/-- A new phrase comes before the rest of a pass. -/
def build (application : Application) (phrase : Node) (rest : Pass) : Pass :=
  ⟨phrase :: rest.nodes, application :: rest.applications⟩

end Pass

namespace ReadyRule

/-- The phrase that the rule at a place of the grammar builds over nodes, the first word below
which has the given offset. -/
def application (ready : ReadyRule) (rule : Nat) (offset : Nat) (phrase : Node) : Application :=
  ⟨rule, ready.rule.label, offset, offset + phrase.leafCount, phrase.spanText⟩

/-- Goes over the nodes from `index` on, where `symbols` is the text of all nodes and `offset` the
number of words before. -/
def scan (ready : ReadyRule) (rule : Nat) (symbols : SymbolText) (index offset : Nat) :
    List Node → Pass
  | [] => Pass.empty
  | node :: rest =>
    match ready.matcher.matchAt symbols index with
    | some consumed =>
      let phrase := Node.phrase ready.rule.label (node :: rest.take (consumed - 1))
      Pass.build (ready.application rule offset phrase) phrase
        (ready.scan rule symbols (index + consumed) (offset + phrase.leafCount)
          (rest.drop (consumed - 1)))
    | none =>
      Pass.keep node (ready.scan rule symbols (index + 1) (offset + node.leafCount) rest)
termination_by nodes => nodes.length
decreasing_by all_goals simp; try omega

/-- The text of the symbols of nodes. -/
def symbolText (nodes : List Node) : SymbolText :=
  .ofSymbols (nodes.map Node.symbol)

/-- The pass of the rule at a place of the grammar. -/
def pass (ready : ReadyRule) (rule : Nat) (nodes : List Node) : Pass :=
  ready.scan rule (symbolText nodes) 0 0 nodes

end ReadyRule

/-! ### All rules -/

/-- The nodes all rules leave, the phrases they built, and the log, in order. -/
structure Run where
  nodes : List Node
  applications : List Application
  log : List LogRecord

namespace Run

/-- What a rule sees before its pass. -/
def passRecord (ready : ReadyRule) (rule : Nat) (nodes : List Node) : LogRecord :=
  ⟨.trace, "rule " ++ toString (rule + 1) ++ " (" ++ ready.rule.label ++ ") over " ++
    (ReadyRule.symbolText nodes).toText⟩

/-- Applies rules, the first of which has the given place. Where no node is, no rule is tried. -/
def ofRules (rule : Nat) (nodes : List Node) : List ReadyRule → Run
  | [] => ⟨nodes, [], []⟩
  | ready :: others =>
    if nodes.isEmpty then ⟨nodes, [], []⟩
    else
      let pass := ready.pass rule nodes
      let rest := ofRules (rule + 1) pass.nodes others
      ⟨rest.nodes, pass.applications ++ rest.applications,
        passRecord ready rule nodes :: pass.applications.map Application.logRecord ++ rest.log⟩

end Run

/-! ### Sentences -/

/-- A grammar and the label of the root of every tree. -/
structure Chunker where
  grammar : Grammar
  rootLabel : String := Tree.defaultLabel

namespace Chunker

/-- What is wrong with a word. -/
def tokenFault? (token : Token) : Option InputFault :=
  if token.text.isEmpty then some .emptyText
  else if token.tag.isEmpty then some (.missingTag token.text)
  else none

/-- What is wrong with the first word that has no text or no tag, when the first of the words has
the given place. -/
def malformed? (index : Nat) : List Token → Option MalformedInput
  | [] => none
  | token :: tokens =>
    match tokenFault? token with
    | some fault => some ⟨index, fault⟩
    | none => malformed? (index + 1) tokens

/-- Applies all rules to a sentence. -/
def run (chunker : Chunker) (tokens : List Token) : Except MalformedInput Run :=
  match malformed? 0 tokens with
  | some error => .error error
  | none => .ok (Run.ofRules 0 (tokens.map Node.leaf) chunker.grammar.ready)

/-- The tree of a sentence. -/
def chunk (chunker : Chunker) (tokens : List Token) : Except MalformedInput Tree :=
  (chunker.run tokens).map fun run => ⟨chunker.rootLabel, run.nodes⟩

/-- The tree of a sentence and every phrase that a rule built. -/
def chunkTraced (chunker : Chunker) (tokens : List Token) :
    Except MalformedInput (Tree × List Application) :=
  (chunker.run tokens).map fun run => (⟨chunker.rootLabel, run.nodes⟩, run.applications)

/-- The tree of a sentence given as texts with their tags. -/
def chunkPairs (chunker : Chunker) (pairs : List (String × String)) : Except MalformedInput Tree :=
  chunker.chunk (pairs.map fun (text, tag) => ⟨text, tag⟩)

/-- The log of chunking a sentence. -/
def log (chunker : Chunker) (tokens : List Token) : List LogRecord :=
  match chunker.run tokens with
  | .ok run => run.log
  | .error _ => []

end Chunker

/-- The log of building a grammar. -/
def Grammar.log (grammar : Grammar) : List LogRecord :=
  grammar.warnings.map fun warning => ⟨.warn, warning.message⟩

end ShallowParse
