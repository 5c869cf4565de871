/-
This file reads rules from text: one rule from one text, and the rules of a text
with one line for each.

In a text of several lines, a line without a label adds a rule under the label
before it, and a line with a label alone sets the label of the lines after it.
Such a label must get a rule before the next label and before the end.
-/

import ShallowParse.Notation.Lexer
import ShallowParse.Notation.Line
import ShallowParse.Rule

namespace ShallowParse

/-! ### Errors -/

/-- Why a text is not a rule. -/
inductive NotationError where
  /-- Text at a byte offset that begins no lexeme. -/
  | unexpectedText (offset : Nat) (text : String)
  | syntactic (error : LineError)
  | missingLabel
  | missingPattern (label : String)
deriving DecidableEq

def NotationError.message : NotationError → String
  | unexpectedText offset text =>
    "unexpected text '" ++ text ++ "' at column " ++ toString (offset + 1)
  | syntactic error => error.message
  | missingLabel => "pattern has no label"
  | missingPattern label => "rule " ++ label ++ " has no pattern"

/-- An error on a line, counted from 1. -/
structure RulesError where
  line : Nat
  cause : NotationError
deriving DecidableEq

def RulesError.message (error : RulesError) : String :=
  "Grammar notation error on line " ++ toString error.line ++ ": " ++ error.cause.message

/-! ### One rule -/

/-- The lexemes of a text that can be read to its end. -/
def Lexeme.ofText (text : String) : Except NotationError (List Lexeme) :=
  let lexing := Lexing.ofText text
  match lexing.stuck with
  | some place => .error (.unexpectedText place.start place.value)
  | none => .ok (lexing.found.map Placed.value)

def RuleLine.ofLexemes (lexemes : List Lexeme) : Except NotationError RuleLine :=
  (RuleLine.read lexemes).mapError .syntactic

/-- Reads a rule that has both its label and its pattern. -/
def Rule.ofText (text : String) : Except NotationError Rule := do
  let line ← RuleLine.ofLexemes (← Lexeme.ofText text)
  match line.label, line.pattern with
  | some label, some pattern => .ok ⟨label, pattern⟩
  | none, _ => .error .missingLabel
  | some label, none => .error (.missingPattern label)

/-! ### Many rules -/

/-- The rules read so far, last first, the label that is in force, and the label that still waits
for a pattern with its line. -/
structure RulesReader where
  rules : List Rule
  label : Option String
  pending : Option (Nat × String)

namespace RulesReader

def start : RulesReader := ⟨[], none, none⟩

/-- The error of a label that never got a pattern. -/
def unfinished? (reader : RulesReader) : Option RulesError :=
  reader.pending.map fun (line, label) => ⟨line, .missingPattern label⟩

/-- A new label comes into force, unless the one before it still waits for a pattern. -/
def setLabel (reader : RulesReader) (line : Nat) (label : String) (hasPattern : Bool) :
    Except RulesError RulesReader :=
  match reader.unfinished? with
  | some error => .error error
  | none =>
    .ok { reader with
      label := some label
      pending := if hasPattern then none else some (line, label) }

/-- A rule is added under the label in force. -/
def addPattern (reader : RulesReader) (line : Nat) (pattern : Pattern) :
    Except RulesError RulesReader :=
  match reader.label with
  | some label => .ok { reader with rules := ⟨label, pattern⟩ :: reader.rules, pending := none }
  | none => .error ⟨line, .missingLabel⟩

/-- The reader after a line that holds a label, a pattern, or both. -/
def addLine (reader : RulesReader) (line : Nat) (content : RuleLine) :
    Except RulesError RulesReader := do
  let labelled ←
    match content.label with
    | some label => reader.setLabel line label content.pattern.isSome
    | none => .ok reader
  match content.pattern with
  | some pattern => labelled.addPattern line pattern
  | none => .ok labelled

/-- The reader after a line of text, which may be blank. -/
def addText (reader : RulesReader) (line : Nat) (text : String) :
    Except RulesError RulesReader := do
  let lexemes ← (Lexeme.ofText text).mapError (⟨line, ·⟩)
  if lexemes.isEmpty then .ok reader
  else
    let content ← (RuleLine.ofLexemes lexemes).mapError (⟨line, ·⟩)
    reader.addLine line content

/-- The reader after lines of text, the first of which has the given number. -/
def addLines (reader : RulesReader) (line : Nat) : List String → Except RulesError RulesReader
  | [] => .ok reader
  | text :: texts => do
    let next ← reader.addText line text
    next.addLines (line + 1) texts

/-- The rules in order, unless a label waits for a pattern. -/
def finish (reader : RulesReader) : Except RulesError (List Rule) :=
  match reader.unfinished? with
  | some error => .error error
  | none => .ok reader.rules.reverse

end RulesReader

/-- Reads the rules of a text with one line for each. -/
def Rule.allOfText (text : String) : Except RulesError (List Rule) := do
  let reader ← RulesReader.start.addLines 1 (Text.lines text)
  reader.finish

end ShallowParse
