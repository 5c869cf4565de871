/-
This file reads one line of rule notation from its lexemes.

A line is a label with a colon, a pattern in braces, or both in this order. A
pattern is one or more sequences parted by bars, a sequence is one or more
terms, and a term is a tag class or a pattern in parentheses, followed by any
number of quantifiers, each of which applies to all before it.

The reader goes through the lexemes once. It keeps the parentheses that are
open, and for each of them and for the braces the sequences that are finished
and the terms of the one being read. So it refuses a line at the first lexeme
that cannot continue any line.
-/

import ShallowParse.Notation.Lexeme
import ShallowParse.Notation.TagClass

namespace ShallowParse

/-! ### Errors -/

/-- Why lexemes do not make up a line. -/
inductive LineError where
  | badClass (fault : TagClass.Fault)
  | nothing
  | unexpected (lexeme : Lexeme)
  | unfinished
deriving DecidableEq

def LineError.message : LineError → String
  | badClass fault => fault.message
  | nothing => "expected a rule label or a \x7bpattern\x7d"
  | unexpected lexeme => "unexpected " ++ lexeme.described
  | unfinished => "unexpected end of rule"

/-! ### Patterns being read -/

/-- A pattern being read: its finished sequences and the terms of the current one, last first. -/
structure OpenPattern where
  finished : List Pattern
  terms : List Pattern
deriving Inhabited

namespace OpenPattern

def empty : OpenPattern := ⟨[], []⟩

def addTerm (pattern : OpenPattern) (term : Pattern) : OpenPattern :=
  { pattern with terms := term :: pattern.terms }

/-- The sequence being read ends; it must have a term. -/
def endSequence? (pattern : OpenPattern) : Option OpenPattern :=
  if pattern.terms.isEmpty then none
  else some ⟨Pattern.inOrder pattern.terms.reverse :: pattern.finished, []⟩

/-- The pattern ends, and with it its last sequence. -/
def close? (pattern : OpenPattern) : Option Pattern :=
  pattern.endSequence?.map fun ended => Pattern.anyOf ended.finished.reverse

/-- A quantifier applies to the last term, which must be there. -/
def quantify? (pattern : OpenPattern) (least : Nat) (most : Option Nat) : Option OpenPattern :=
  match pattern.terms with
  | [] => none
  | term :: terms => some { pattern with terms := .repetition term least most :: terms }

end OpenPattern

/-- The bounds that a lexeme sets if it is a quantifier. -/
def Lexeme.quantifier? : Lexeme → Option (Nat × Option Nat)
  | .question => some (0, some 1)
  | .star => some (0, none)
  | .plus => some (1, none)
  | .bounds least most => some (least, most)
  | _ => none

/-- The pattern being read and the ones around it that wait for it, innermost first. -/
structure PatternReader where
  current : OpenPattern
  waiting : List OpenPattern

namespace PatternReader

def start : PatternReader := ⟨.empty, []⟩

/-- The reader after one more lexeme of the pattern, or `none` if no pattern goes on with it. -/
def next? (reader : PatternReader) (lexeme : Lexeme) : Option PatternReader :=
  match lexeme with
  | .tagClass body =>
    (TagClass.read body).toOption.map fun term =>
      { reader with current := reader.current.addTerm term }
  | .openParen => some ⟨.empty, reader.current :: reader.waiting⟩
  | .closeParen =>
    match reader.current.close?, reader.waiting with
    | some group, outer :: others => some ⟨outer.addTerm group, others⟩
    | _, _ => none
  | .bar => reader.current.endSequence?.map fun ended => { reader with current := ended }
  | lexeme =>
    lexeme.quantifier?.bind fun (least, most) =>
      (reader.current.quantify? least most).map fun quantified =>
        { reader with current := quantified }

/-- The pattern, if no parenthesis is open. -/
def close? (reader : PatternReader) : Option Pattern :=
  if reader.waiting.isEmpty then reader.current.close? else none

/-- Reads a pattern up to the brace that closes it, which must be the last lexeme. -/
def read (reader : PatternReader) : List Lexeme → Except LineError Pattern
  | [] => .error .unfinished
  | .closeBrace :: rest =>
    match reader.close?, rest with
    | none, _ => .error (.unexpected .closeBrace)
    | some pattern, [] => .ok pattern
    | some _, lexeme :: _ => .error (.unexpected lexeme)
  | lexeme :: rest =>
    match reader.next? lexeme with
    | some reader => reader.read rest
    | none => .error (.unexpected lexeme)

end PatternReader

/-! ### Lines -/

/-- A label, a pattern, or both. -/
structure RuleLine where
  label : Option String
  pattern : Option Pattern
deriving DecidableEq

namespace RuleLine

/-- The first tag class whose body cannot be read. -/
def classFault? : List Lexeme → Option TagClass.Fault
  | [] => none
  | .tagClass body :: rest =>
    match TagClass.read body with
    | .error fault => some fault
    | .ok _ => classFault? rest
  | _ :: rest => classFault? rest

/-- What follows the label. -/
def readBody : List Lexeme → Except LineError (Option Pattern)
  | [] => .ok none
  | .openBrace :: rest => (PatternReader.start.read rest).map some
  | lexeme :: _ => .error (.unexpected lexeme)

/-- A line whose tag classes can all be read. -/
def readParts : List Lexeme → Except LineError RuleLine
  | [] => .error .nothing
  | .label name :: .colon :: rest => (readBody rest).map (⟨some name, ·⟩)
  | .label _ :: lexeme :: _ => .error (.unexpected lexeme)
  | .label _ :: [] => .error .unfinished
  | lexemes => (readBody lexemes).map (⟨none, ·⟩)

/-- Reads a line. A tag class that cannot be read is reported before any other error. -/
def read (lexemes : List Lexeme) : Except LineError RuleLine :=
  match classFault? lexemes with
  | some fault => .error (.badClass fault)
  | none => readParts lexemes

end RuleLine

end ShallowParse
