/-
This file defines grammars: rules in the order in which they are applied, each
with its pattern made ready for matching.

A grammar takes a rule only if the rule has a label, its pattern has no fault and
cannot match the empty run, so that no phrase is ever empty. A rule may name a
label that no rule before it builds. Then it finds no phrase with that label, only
words that are tagged with it, and the grammar's warnings report the name.
-/

import ShallowParse.Matcher
import ShallowParse.Notation.Rules
import ShallowParse.Rule
import ShallowParse.Text.Blank

namespace ShallowParse

/-! ### Errors -/

/-- Why a rule is refused. -/
inductive RuleFault where
  | blankLabel
  | badPattern (fault : Pattern.Fault)
  | nullable (pattern : Pattern)
deriving DecidableEq

def RuleFault.reason : RuleFault → String
  | blankLabel => "rule label is empty"
  | badPattern fault => fault.message
  | nullable pattern => "pattern " ++ pattern.written ++ " can match zero tags"

/-- Why there is no grammar. Rules are counted from 0 here and from 1 in messages. -/
inductive GrammarError where
  | invalidRule (index : Nat) (label : String) (fault : RuleFault)
  | unreadable (error : RulesError)
  | beyondLimits (index : Nat) (label : String) (error : Pattern.ExpressionError)
deriving DecidableEq

def GrammarError.message : GrammarError → String
  | invalidRule index label fault =>
    "Invalid grammar: rule " ++ toString (index + 1) ++ " (" ++ label ++ "): " ++ fault.reason
  | unreadable error => error.message
  | beyondLimits index label error =>
    "Could not compile rule " ++ toString (index + 1) ++ " (" ++ label ++ "): " ++ error.message

/-! ### Warnings -/

/-- A rule names a label that no rule before it builds. -/
structure GrammarWarning where
  index : Nat
  label : String
  symbol : String
deriving DecidableEq

def GrammarWarning.message (warning : GrammarWarning) : String :=
  "rule " ++ toString (warning.index + 1) ++ " (" ++ warning.label ++ ") refers to <" ++
    warning.symbol ++ ">, which no earlier rule produces; that alternative never matches"

/-! ### Grammars -/

/-- A rule with its pattern made ready for matching. -/
structure ReadyRule where
  rule : Rule
  matcher : Matcher

structure Grammar where
  ready : List ReadyRule

namespace Grammar

/-- Why a rule is refused, the label before the pattern. -/
def ruleFault? (rule : Rule) : Option RuleFault :=
  if Text.isBlankText rule.label then some .blankLabel
  else
    match rule.pattern.fault? with
    | some fault => some (.badPattern fault)
    | none => if rule.pattern.isNullable then some (.nullable rule.pattern) else none

/-- Makes a rule ready, given its place in the grammar. -/
def readyRule (index : Nat) (rule : Rule) : Except GrammarError ReadyRule :=
  match ruleFault? rule with
  | some fault => .error (.invalidRule index rule.label fault)
  | none =>
    match Matcher.ofPattern rule.pattern with
    | .ok matcher => .ok ⟨rule, matcher⟩
    | .error error => .error (.beyondLimits index rule.label error)

/-- Makes rules ready, the first of which has the given place. -/
def readyRules (index : Nat) : List Rule → Except GrammarError (List ReadyRule)
  | [] => .ok []
  | rule :: rules => do
    let ready ← readyRule index rule
    let others ← readyRules (index + 1) rules
    return ready :: others

/-- The grammar of some rules, in their order. -/
def ofRules (rules : List Rule) : Except GrammarError Grammar :=
  (readyRules 0 rules).map Grammar.mk

/-- The grammar of a text in rule notation. -/
def ofText (text : String) : Except GrammarError Grammar := do
  let rules ← (Rule.allOfText text).mapError .unreadable
  ofRules rules

/-- The rules, in the order in which they are applied. -/
def rules (grammar : Grammar) : List Rule :=
  grammar.ready.map ReadyRule.rule

def size (grammar : Grammar) : Nat :=
  grammar.ready.length

def isEmpty (grammar : Grammar) : Bool :=
  grammar.ready.isEmpty

/-- The texts of a list, each where it stands first, but for those that were met before. -/
def firstOccurrences (met : List String) : List String → List String
  | [] => []
  | text :: texts =>
    if met.contains text then firstOccurrences met texts
    else text :: firstOccurrences (text :: met) texts

/-- The labels of the rules, each where it stands first. -/
def labels (grammar : Grammar) : List String :=
  firstOccurrences [] (grammar.rules.map Rule.label)

/-- A grammar in rule notation, one rule on each line. -/
def written (grammar : Grammar) : String :=
  String.join (grammar.rules.map fun rule => rule.written ++ "\n")

/-- The warnings for rules, the first of which has the given place, when `labels` are the labels
of all rules and `produced` those of the rules before. -/
def warningsFrom (labels produced : List String) (index : Nat) : List Rule → List GrammarWarning
  | [] => []
  | rule :: rules =>
    let unproduced := rule.pattern.symbols.filter fun symbol =>
      labels.contains symbol && !produced.contains symbol
    unproduced.map (⟨index, rule.label, ·⟩) ++
      warningsFrom labels (rule.label :: produced) (index + 1) rules

/-- The labels that rules name before any rule builds them, in the order of the rules. -/
def warnings (grammar : Grammar) : List GrammarWarning :=
  warningsFrom (grammar.rules.map Rule.label) [] 0 grammar.rules

end Grammar

end ShallowParse
