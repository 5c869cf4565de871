/-
This file defines a reader of derivations, which goes through lexemes as the
reader of patterns does but keeps the trees of what it has read. It proves that
the reader of patterns sees just the values of these trees, that the trees always
derive the lexemes read, and that the lexemes of a tree are read as that tree.
-/

import ShallowParse.Proofs.Notation.ClassReading
import ShallowParse.Proofs.Notation.Derivation

namespace ShallowParse

/-! ### Quantifiers -/

namespace Quantifier

/-- The quantifier that a lexeme is. -/
def ofLexeme? : Lexeme → Option Quantifier
  | .question => some question
  | .star => some star
  | .plus => some plus
  | .bounds least most => some (bounds least most)
  | _ => none

end Quantifier

/-! ### Rows as lists -/

namespace Row

variable {Item : Type}

def toList : Row Item → List Item
  | last item => [item]
  | more item rest => item :: rest.toList

/-- The row of the items of a list that has one. -/
def ofList? : List Item → Option (Row Item)
  | [] => none
  | item :: items =>
    match ofList? items with
    | none => some (last item)
    | some rest => some (more item rest)

theorem ofList?_toList (row : Row Item) : ofList? row.toList = some row := by
  induction row with
  | last item => rfl
  | more item rest inductionHypothesis => rw [toList, ofList?, inductionHypothesis]

theorem ofList?_eq_none_iff (items : List Item) : ofList? items = none ↔ items = [] := by
  cases items with
  | nil => exact iff_of_true rfl rfl
  | cons item rest =>
    refine iff_of_false ?_ (List.cons_ne_nil _ _)
    rw [ofList?]
    split <;> exact Option.some_ne_none _

theorem toList_of_ofList? (items : List Item) (row : Row Item) (found : ofList? items = some row) :
    row.toList = items := by
  induction items generalizing row with
  | nil => cases found
  | cons item rest inductionHypothesis =>
    rw [ofList?] at found
    cases others : ofList? rest with
    | none =>
      rw [others] at found
      cases found
      rw [toList, (ofList?_eq_none_iff rest).mp others]
    | some inner =>
      rw [others] at found
      cases found
      rw [toList, inductionHypothesis inner others]

theorem toList_ne_nil (row : Row Item) : row.toList ≠ [] := by
  cases row <;> exact List.cons_ne_nil _ _

end Row

/-! ### Lexemes and values of rows -/

theorem SequenceTree.lexemes_eq (sequence : SequenceTree) :
    sequence.lexemes = sequence.toList.flatMap TermTree.lexemes := by
  induction sequence with
  | last term => rw [lexemes, Row.toList, List.flatMap_singleton]
  | more term rest inductionHypothesis =>
    rw [lexemes, Row.toList, List.flatMap_cons, inductionHypothesis]

theorem AlternationTree.lexemes_eq (alternation : AlternationTree) (before : List SequenceTree)
    (final : SequenceTree) (parted : alternation.toList = before ++ [final]) :
    alternation.lexemes =
      before.flatMap (fun sequence => sequence.lexemes ++ [.bar]) ++ final.lexemes := by
  induction alternation generalizing before with
  | last sequence =>
    cases before with
    | nil => cases parted; rfl
    | cons first others =>
      rw [Row.toList, List.cons_append, List.cons.injEq] at parted
      exact absurd parted.2.symm (List.append_ne_nil_of_right_ne_nil _ (List.cons_ne_nil _ _))
  | more sequence rest inductionHypothesis =>
    cases before with
    | nil =>
      rw [Row.toList, List.nil_append, List.cons.injEq] at parted
      exact absurd parted.2 rest.toList_ne_nil
    | cons first others =>
      rw [Row.toList, List.cons_append, List.cons.injEq] at parted
      obtain ⟨rfl, partedRest⟩ := parted
      rw [lexemes, inductionHypothesis others partedRest, List.flatMap_cons, List.append_assoc,
        List.append_assoc]
      rfl

/-- The pattern of a term. -/
def TermTree.value : TermTree → Pattern
  | quantified atom quantifiers => quantifiers.foldl Quantifier.quantified atom.value

theorem Quantifier.items_foldl_quantified (quantifiers : List Quantifier) (body : Pattern)
    (single : body.items = [body]) :
    (quantifiers.foldl quantified body).items = [quantifiers.foldl quantified body] := by
  induction quantifiers generalizing body with
  | nil => exact single
  | cons quantifier rest inductionHypothesis =>
    rw [List.foldl_cons]
    apply inductionHypothesis
    cases quantifier <;> rfl

/-- A term contributes to a sequence what its pattern does. -/
theorem TermTree.items_eq (term : TermTree) : term.items = term.value.items := by
  obtain ⟨atom, quantifiers⟩ := term
  cases quantifiers with
  | nil =>
    cases atom with
    | tagClass body test readable =>
      rw [items, value]
      exact (TagClass.items_of_read body test readable).symm
      all_goals simp
    | group inner =>
      rw [items, value, List.foldl_nil, AtomTree.value]
  | cons quantifier rest =>
    rw [items, value, List.foldl_cons, Quantifier.items_foldl_quantified]
    · cases quantifier <;> rfl
    · simp

theorem SequenceTree.items_eq (sequence : SequenceTree) :
    sequence.items = (sequence.toList.map TermTree.value).flatMap Pattern.items := by
  induction sequence with
  | last term =>
    rw [items, TermTree.items_eq, Row.toList, List.map_singleton, List.flatMap_singleton]
  | more term rest inductionHypothesis =>
    rw [items, TermTree.items_eq, Row.toList, List.map_cons, List.flatMap_cons,
      inductionHypothesis]

theorem SequenceTree.value_eq (sequence : SequenceTree) :
    sequence.value = Pattern.inOrder (sequence.toList.map TermTree.value) := by
  rw [value, items_eq]
  rfl

theorem AlternationTree.value_eq (alternation : AlternationTree) :
    alternation.value = Pattern.anyOf (alternation.toList.map SequenceTree.value) := by
  have sameAlternatives : alternation.alternatives = alternation.toList.map SequenceTree.value := by
    induction alternation with
    | last sequence => rw [alternatives, Row.toList, List.map_singleton, SequenceTree.value]
    | more sequence rest inductionHypothesis =>
      rw [alternatives, Row.toList, List.map_cons, SequenceTree.value, inductionHypothesis]
  rw [value, sameAlternatives]

/-! ### Trees being read -/

/-- The trees of an open pattern: its finished sequences and the terms of the current one, last
first. -/
structure OpenTree where
  finished : List SequenceTree
  terms : List TermTree

namespace OpenTree

def empty : OpenTree := ⟨[], []⟩

def addTerm (tree : OpenTree) (term : TermTree) : OpenTree :=
  { tree with terms := term :: tree.terms }

def endSequence? (tree : OpenTree) : Option OpenTree :=
  (Row.ofList? tree.terms.reverse).map fun sequence => ⟨sequence :: tree.finished, []⟩

def close? (tree : OpenTree) : Option AlternationTree :=
  tree.endSequence?.bind fun ended => Row.ofList? ended.finished.reverse

def quantify? (tree : OpenTree) (quantifier : Quantifier) : Option OpenTree :=
  match tree.terms with
  | [] => none
  | .quantified atom quantifiers :: terms =>
    some { tree with terms := .quantified atom (quantifiers ++ [quantifier]) :: terms }

/-- What the reader of patterns sees of the trees. -/
def pattern (tree : OpenTree) : OpenPattern :=
  ⟨tree.finished.map SequenceTree.value, tree.terms.map TermTree.value⟩

/-- The lexemes read since the pattern was opened. -/
def lexemes (tree : OpenTree) : List Lexeme :=
  tree.finished.reverse.flatMap (fun sequence => sequence.lexemes ++ [.bar]) ++
    tree.terms.reverse.flatMap TermTree.lexemes

/-! ### Values of open trees -/

theorem pattern_endSequence? (tree : OpenTree) :
    tree.pattern.endSequence? = tree.endSequence?.map pattern := by
  obtain ⟨finished, terms⟩ := tree
  cases found : Row.ofList? terms.reverse with
  | none =>
    have none : terms = [] := List.reverse_eq_nil_iff.mp ((Row.ofList?_eq_none_iff _).mp found)
    rw [none]
    rfl
  | some sequence =>
    have listed := Row.toList_of_ofList? _ _ found
    have isSome : terms ≠ [] := by
      rintro rfl
      cases found
    rw [endSequence?, found, OpenPattern.endSequence?, if_neg (by simpa [pattern] using isSome)]
    show some (OpenPattern.mk (Pattern.inOrder (terms.map TermTree.value).reverse :: _) []) = _
    rw [← List.map_reverse, ← listed, ← SequenceTree.value_eq]
    rfl

theorem pattern_close? (tree : OpenTree) :
    tree.pattern.close? = tree.close?.map AlternationTree.value := by
  rw [OpenPattern.close?, pattern_endSequence?, close?, endSequence?]
  cases Row.ofList? tree.terms.reverse with
  | none => rfl
  | some sequence =>
    show _ = (Row.ofList? (sequence :: tree.finished).reverse).map _
    cases found : Row.ofList? (sequence :: tree.finished).reverse with
    | none =>
      have impossible := (Row.ofList?_eq_none_iff _).mp found
      simp at impossible
    | some alternation =>
      show some (Pattern.anyOf ((sequence :: tree.finished).map SequenceTree.value).reverse) = _
      rw [← List.map_reverse, ← Row.toList_of_ofList? _ _ found, ← AlternationTree.value_eq]
      rfl

theorem pattern_quantify? (tree : OpenTree) (quantifier : Quantifier) (least : Nat)
    (most : Option Nat) (bounds : quantifier.lexeme.quantifier? = some (least, most)) :
    tree.pattern.quantify? least most = (tree.quantify? quantifier).map pattern := by
  obtain ⟨finished, terms⟩ := tree
  cases terms with
  | nil => rfl
  | cons term others =>
    obtain ⟨atom, quantifiers⟩ := term
    show some (OpenPattern.mk _ (.repetition (TermTree.value _) least most :: _)) = some _
    have value : TermTree.value (.quantified atom (quantifiers ++ [quantifier])) =
        .repetition (TermTree.value (.quantified atom quantifiers)) least most := by
      rw [TermTree.value, List.foldl_append, ← TermTree.value]
      cases quantifier <;> cases bounds <;> rfl
    rw [← value]
    rfl

/-! ### Lexemes of open trees -/

theorem lexemes_addTerm (tree : OpenTree) (term : TermTree) :
    (tree.addTerm term).lexemes = tree.lexemes ++ term.lexemes := by
  simp only [addTerm, lexemes, List.reverse_cons, List.flatMap_append, List.flatMap_singleton,
    List.append_assoc]

theorem lexemes_endSequence? (tree ended : OpenTree) (found : tree.endSequence? = some ended) :
    ended.lexemes = tree.lexemes ++ [.bar] := by
  obtain ⟨sequence, isSequence, rfl⟩ := Option.map_eq_some_iff.mp found
  have listed := Row.toList_of_ofList? _ _ isSequence
  simp only [lexemes, List.reverse_cons, List.flatMap_append, List.flatMap_singleton,
    List.reverse_nil, List.flatMap_nil, List.append_nil, SequenceTree.lexemes_eq, listed,
    List.append_assoc]

theorem lexemes_close? (tree : OpenTree) (alternation : AlternationTree)
    (found : tree.close? = some alternation) : alternation.lexemes = tree.lexemes := by
  obtain ⟨ended, isEnded, isAlternation⟩ := Option.bind_eq_some_iff.mp found
  obtain ⟨sequence, isSequence, rfl⟩ := Option.map_eq_some_iff.mp isEnded
  have parted := Row.toList_of_ofList? _ _ isAlternation
  rw [List.reverse_cons] at parted
  rw [AlternationTree.lexemes_eq alternation _ _ parted, SequenceTree.lexemes_eq,
    Row.toList_of_ofList? _ _ isSequence]
  rfl

theorem lexemes_quantify? (tree quantified : OpenTree) (quantifier : Quantifier)
    (found : tree.quantify? quantifier = some quantified) :
    quantified.lexemes = tree.lexemes ++ [quantifier.lexeme] := by
  obtain ⟨finished, terms⟩ := tree
  cases terms with
  | nil => cases found
  | cons term others =>
    obtain ⟨atom, quantifiers⟩ := term
    cases found
    simp only [lexemes, List.reverse_cons, List.flatMap_append, List.flatMap_singleton,
      TermTree.lexemes, List.map_append, List.map_singleton, List.append_assoc]

end OpenTree

/-! ### The reader -/

/-- The trees of the pattern being read and of the ones around it, innermost first. -/
structure TreeReader where
  current : OpenTree
  waiting : List OpenTree

namespace TreeReader

def start : TreeReader := ⟨.empty, []⟩

/-- A term is read in the pattern being read. -/
def addTerm (reader : TreeReader) (term : TermTree) : TreeReader :=
  { reader with current := reader.current.addTerm term }

/-- A quantifier applies to the last term. -/
def quantify? (reader : TreeReader) (quantifier : Quantifier) : Option TreeReader :=
  (reader.current.quantify? quantifier).map fun quantified =>
    { reader with current := quantified }

/-- The reader after one more lexeme, or `none` if no derivation goes on with it. -/
def next? (reader : TreeReader) : Lexeme → Option TreeReader
  | .tagClass body =>
    match readable : TagClass.read body with
    | .error _ => none
    | .ok test => some (reader.addTerm (.quantified (.tagClass body test readable) []))
  | .openParen => some ⟨.empty, reader.current :: reader.waiting⟩
  | .closeParen =>
    match reader.current.close?, reader.waiting with
    | some inner, outer :: others => some ⟨outer.addTerm (.quantified (.group inner) []), others⟩
    | _, _ => none
  | .bar => reader.current.endSequence?.map fun ended => { reader with current := ended }
  | lexeme => (Quantifier.ofLexeme? lexeme).bind reader.quantify?

/-- The reader after lexemes. -/
def feed (reader : TreeReader) : List Lexeme → Option TreeReader
  | [] => some reader
  | lexeme :: lexemes => (reader.next? lexeme).bind (feed · lexemes)

theorem feed_append (reader : TreeReader) (before after : List Lexeme) :
    reader.feed (before ++ after) = (reader.feed before).bind (feed · after) := by
  induction before generalizing reader with
  | nil => rfl
  | cons lexeme rest inductionHypothesis =>
    rw [List.cons_append, feed, feed, Option.bind_assoc]
    exact congrArg _ (funext fun next => inductionHypothesis next)

/-- The tree of all that was read, if no parenthesis is open. -/
def close? (reader : TreeReader) : Option AlternationTree :=
  if reader.waiting.isEmpty then reader.current.close? else none

/-! ### Values -/

/-- The reader of patterns that has read the same. -/
def patterns (reader : TreeReader) : PatternReader :=
  ⟨reader.current.pattern, reader.waiting.map OpenTree.pattern⟩

theorem quantify?_patterns (reader : TreeReader) (quantifier : Quantifier) (least : Nat)
    (most : Option Nat) (bounds : quantifier.lexeme.quantifier? = some (least, most)) :
    (reader.patterns.current.quantify? least most).map
        (fun quantified => { reader.patterns with current := quantified }) =
      (reader.quantify? quantifier).map patterns := by
  rw [quantify?, show reader.patterns.current = reader.current.pattern from rfl,
    OpenTree.pattern_quantify? _ _ _ _ bounds]
  cases reader.current.quantify? quantifier <;> rfl

/-- The reader of patterns keeps the values of the trees at every lexeme. -/
theorem next?_patterns (reader : TreeReader) (lexeme : Lexeme) :
    reader.patterns.next? lexeme = (reader.next? lexeme).map patterns := by
  cases lexeme with
  | tagClass body =>
    rw [next?, PatternReader.next?]
    split
    · rename_i fault unreadable
      rw [unreadable]
      rfl
    · rename_i test readable
      have isTest : (TagClass.read body).toOption = some test := by rw [readable]; rfl
      rw [isTest]
      rfl
  | openParen => rfl
  | closeParen =>
    obtain ⟨current, waiting⟩ := reader
    rw [next?, PatternReader.next?,
      show (TreeReader.mk current waiting).patterns.current = current.pattern from rfl,
      OpenTree.pattern_close?]
    cases current.close? with
    | none => rfl
    | some inner => cases waiting <;> rfl
  | bar =>
    rw [next?, PatternReader.next?, show reader.patterns.current = reader.current.pattern from rfl,
      OpenTree.pattern_endSequence?]
    cases reader.current.endSequence? <;> rfl
  | bounds least most => exact reader.quantify?_patterns (.bounds least most) _ _ rfl
  | question => exact reader.quantify?_patterns .question _ _ rfl
  | star => exact reader.quantify?_patterns .star _ _ rfl
  | plus => exact reader.quantify?_patterns .plus _ _ rfl
  | label name => rfl
  | colon => rfl
  | openBrace => rfl
  | closeBrace => rfl

theorem close?_patterns (reader : TreeReader) :
    reader.patterns.close? = reader.close?.map AlternationTree.value := by
  rw [PatternReader.close?, close?]
  show (if (reader.waiting.map OpenTree.pattern).isEmpty then reader.current.pattern.close?
    else none) = _
  rw [OpenTree.pattern_close?]
  cases reader.waiting <;> rfl

/-! ### Lexemes -/

/-- The lexemes read so far. -/
def lexemes (reader : TreeReader) : List Lexeme :=
  reader.waiting.reverse.flatMap (fun tree => tree.lexemes ++ [.openParen]) ++
    reader.current.lexemes

theorem lexemes_quantify? (reader after : TreeReader) (quantifier : Quantifier)
    (read : reader.quantify? quantifier = some after) :
    after.lexemes = reader.lexemes ++ [quantifier.lexeme] := by
  obtain ⟨quantified, isQuantified, rfl⟩ := Option.map_eq_some_iff.mp read
  rw [lexemes, OpenTree.lexemes_quantify? _ _ _ isQuantified, lexemes, List.append_assoc]

/-- The trees derive all lexemes read. -/
theorem lexemes_next? (reader after : TreeReader) (lexeme : Lexeme)
    (read : reader.next? lexeme = some after) : after.lexemes = reader.lexemes ++ [lexeme] := by
  cases lexeme with
  | tagClass body =>
    rw [next?] at read
    split at read
    · cases read
    · cases read
      rw [lexemes, addTerm, OpenTree.lexemes_addTerm, lexemes, List.append_assoc]
      rfl
  | openParen =>
    cases read
    simp only [lexemes, List.reverse_cons, List.flatMap_append, List.flatMap_singleton,
      List.append_assoc]
    rfl
  | closeParen =>
    obtain ⟨current, waiting⟩ := reader
    rw [next?] at read
    cases closed : current.close? with
    | none => simp only [closed] at read; cases read
    | some inner =>
      cases waiting with
      | nil => simp only [closed] at read; cases read
      | cons outer others =>
        simp only [closed] at read
        cases read
        simp only [lexemes, OpenTree.lexemes_addTerm, TermTree.lexemes, AtomTree.lexemes,
          List.map_nil, List.append_nil, OpenTree.lexemes_close? current inner closed,
          List.reverse_cons, List.flatMap_append, List.flatMap_singleton, List.append_assoc,
          List.cons_append, List.nil_append]
  | bar =>
    obtain ⟨ended, isEnded, rfl⟩ := Option.map_eq_some_iff.mp read
    rw [lexemes, OpenTree.lexemes_endSequence? _ _ isEnded, lexemes, List.append_assoc]
  | bounds least most => exact lexemes_quantify? _ _ (.bounds least most) read
  | question => exact lexemes_quantify? _ _ .question read
  | star => exact lexemes_quantify? _ _ .star read
  | plus => exact lexemes_quantify? _ _ .plus read
  | label name => cases read
  | colon => cases read
  | openBrace => cases read
  | closeBrace => cases read

/-- The tree of all that was read derives just that. -/
theorem lexemes_close? (reader : TreeReader) (alternation : AlternationTree)
    (closed : reader.close? = some alternation) : alternation.lexemes = reader.lexemes := by
  obtain ⟨current, waiting⟩ := reader
  cases waiting with
  | nil => exact OpenTree.lexemes_close? current alternation closed
  | cons outer others => cases closed

end TreeReader

end ShallowParse
