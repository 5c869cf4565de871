/-
This file proves that the reader of lines accepts just what the grammar of the
rule notation derives. The lexemes of a tree are read as that tree, so a line has
one derivation at most, and the reader of lines returns its value.
-/

import ShallowParse.Notation.Rules
import ShallowParse.Proofs.Notation.TreeReader
import ShallowParse.Proofs.Outcome

namespace ShallowParse

/-! ### Reading the lexemes of a tree -/

namespace TreeReader

/-- Terms are read one after the other in the pattern being read. -/
def addTerms (reader : TreeReader) (terms : List TermTree) : TreeReader :=
  { reader with current := { reader.current with terms := terms.reverse ++ reader.current.terms } }

theorem addTerms_cons (reader : TreeReader) (term : TermTree) (terms : List TermTree) :
    (reader.addTerm term).addTerms terms = reader.addTerms (term :: terms) := by
  simp only [addTerm, addTerms, OpenTree.addTerm, List.reverse_cons, List.append_assoc,
    List.singleton_append]

theorem feed_singleton (reader : TreeReader) (lexeme : Lexeme) :
    reader.feed [lexeme] = reader.next? lexeme := by
  rw [feed]
  cases reader.next? lexeme <;> rfl

theorem next?_quantifier (reader : TreeReader) (quantifier : Quantifier) :
    reader.next? quantifier.lexeme = reader.quantify? quantifier := by
  cases quantifier <;> rfl

/-- Quantifiers are read as those of the last term, after the ones it has. -/
theorem feed_quantifiers (reader : TreeReader) (atom : AtomTree)
    (before quantifiers : List Quantifier) :
    (reader.addTerm (.quantified atom before)).feed (quantifiers.map Quantifier.lexeme) =
      some (reader.addTerm (.quantified atom (before ++ quantifiers))) := by
  induction quantifiers generalizing before with
  | nil =>
    rw [List.append_nil]
    rfl
  | cons quantifier rest inductionHypothesis =>
    rw [List.map_cons, feed, next?_quantifier]
    show (reader.addTerm (.quantified atom (before ++ [quantifier]))).feed _ = _
    rw [inductionHypothesis, List.append_assoc]
    rfl

mutual

theorem feed_atom : (atom : AtomTree) → (reader : TreeReader) →
    reader.feed atom.lexemes = some (reader.addTerm (.quantified atom []))
  | .tagClass body test readable, reader => by
    rw [AtomTree.lexemes, feed_singleton, next?]
    split
    · rename_i fault unreadable
      cases unreadable.symm.trans readable
    · rename_i other isRead
      cases isRead.symm.trans readable
      rfl
  | .group inner, reader => by
    obtain ⟨current, fed, closed⟩ := feed_alternation inner [] (reader.current :: reader.waiting)
    rw [AtomTree.lexemes, List.cons_append, feed, next?]
    show feed ⟨⟨[], []⟩, reader.current :: reader.waiting⟩ _ = _
    rw [feed_append, fed]
    show feed ⟨current, _⟩ [.closeParen] = _
    rw [feed_singleton, next?, closed, List.reverse_nil, List.nil_append, Row.ofList?_toList]
    rfl

theorem feed_term : (term : TermTree) → (reader : TreeReader) →
    reader.feed term.lexemes = some (reader.addTerm term)
  | .quantified atom quantifiers, reader => by
    rw [TermTree.lexemes, feed_append, feed_atom atom]
    exact feed_quantifiers reader atom [] quantifiers

theorem feed_sequence : (sequence : SequenceTree) → (reader : TreeReader) →
    reader.feed sequence.lexemes = some (reader.addTerms sequence.toList)
  | .last term, reader => by
    rw [SequenceTree.lexemes, feed_term term, Row.toList]
    rfl
  | .more term rest, reader => by
    rw [SequenceTree.lexemes, feed_append, feed_term term, Row.toList, ← addTerms_cons]
    exact feed_sequence rest (reader.addTerm term)

/-- An alternation is read after finished sequences so that closing makes it up of all of them. -/
theorem feed_alternation : (alternation : AlternationTree) → (finished : List SequenceTree) →
    (waiting : List OpenTree) →
    ∃ current, feed ⟨⟨finished, []⟩, waiting⟩ alternation.lexemes = some ⟨current, waiting⟩ ∧
      current.close? = Row.ofList? (finished.reverse ++ alternation.toList)
  | .last sequence, finished, waiting => by
    refine ⟨⟨finished, sequence.toList.reverse ++ []⟩, ?_, ?_⟩
    · rw [AlternationTree.lexemes, feed_sequence sequence]
      rfl
    · rw [OpenTree.close?, OpenTree.endSequence?, List.append_nil, List.reverse_reverse,
        Row.ofList?_toList, Row.toList, ← List.reverse_cons]
      rfl
  | .more sequence rest, finished, waiting => by
    obtain ⟨current, fed, closed⟩ := feed_alternation rest (sequence :: finished) waiting
    refine ⟨current, ?_, ?_⟩
    · rw [AlternationTree.lexemes, feed_append, feed_sequence sequence]
      show (next? ⟨⟨finished, sequence.toList.reverse ++ []⟩, waiting⟩ .bar).bind (feed · _) = _
      rw [next?, OpenTree.endSequence?, List.append_nil, List.reverse_reverse,
        Row.ofList?_toList]
      exact fed
    · rw [closed, List.reverse_cons, List.append_assoc, Row.toList]
      rfl

end

/-- The lexemes of an alternation are read as that alternation. -/
theorem exists_feed_alternation (alternation : AlternationTree) :
    ∃ reader, start.feed alternation.lexemes = some reader ∧
      reader.close? = some alternation := by
  obtain ⟨current, fed, closed⟩ := feed_alternation alternation [] []
  exact ⟨⟨current, []⟩, fed, closed.trans (Row.ofList?_toList alternation)⟩

theorem lexemes_alternation_injective (first second : AlternationTree)
    (same : first.lexemes = second.lexemes) : first = second := by
  obtain ⟨reader, fed, closed⟩ := exists_feed_alternation first
  obtain ⟨other, fedOther, closedOther⟩ := exists_feed_alternation second
  rw [same, fedOther] at fed
  cases fed
  exact Option.some.inj (closed.symm.trans closedOther)

/-! ### Patterns in braces -/

theorem read_closeBrace (reader : TreeReader) (rest : List Lexeme) :
    reader.patterns.read (.closeBrace :: rest) =
      match reader.close?, rest with
      | none, _ => .error (.unexpected .closeBrace)
      | some alternation, [] => .ok alternation.value
      | some _, lexeme :: _ => .error (.unexpected lexeme) := by
  rw [PatternReader.read.eq_def]
  simp only [close?_patterns]
  cases reader.close? with
  | none => rfl
  | some alternation => cases rest <;> rfl

/-- The reader of patterns takes what the reader of trees takes. -/
theorem read_feed (read : List Lexeme) (reader after : TreeReader) (rest : List Lexeme)
    (fed : reader.feed read = some after) :
    reader.patterns.read (read ++ rest) = after.patterns.read rest := by
  induction read generalizing reader with
  | nil =>
    cases fed
    rfl
  | cons lexeme others inductionHypothesis =>
    obtain ⟨next, isNext, fedOthers⟩ := Option.bind_eq_some_iff.mp fed
    rw [List.cons_append, PatternReader.read, next?_patterns, isNext]
    · exact inductionHypothesis next fedOthers
    · rintro rfl
      cases isNext

/-- What the reader of patterns reads to its end is the value of a derivation. -/
theorem exists_of_read (read : List Lexeme) (reader : TreeReader) (pattern : Pattern)
    (isRead : reader.patterns.read read = .ok pattern) :
    ∃ alternation : AlternationTree,
      reader.lexemes ++ read = alternation.lexemes ++ [.closeBrace] ∧
        alternation.value = pattern := by
  induction read generalizing reader with
  | nil => cases isRead
  | cons lexeme rest inductionHypothesis =>
    by_cases isBrace : lexeme = .closeBrace
    · subst isBrace
      rw [read_closeBrace] at isRead
      cases closed : reader.close? with
      | none => rw [closed] at isRead; cases isRead
      | some alternation =>
        rw [closed] at isRead
        cases rest with
        | nil =>
          cases isRead
          exact ⟨alternation, by rw [lexemes_close? _ _ closed], rfl⟩
        | cons other others => cases isRead
    · rw [PatternReader.read, next?_patterns] at isRead
      · cases found : reader.next? lexeme with
        | none => rw [found] at isRead; cases isRead
        | some next =>
          rw [found] at isRead
          obtain ⟨alternation, derived, value⟩ := inductionHypothesis next isRead
          refine ⟨alternation, ?_, value⟩
          rw [← derived, lexemes_next? _ _ _ found, List.append_assoc]
          rfl
      · exact fun equal => isBrace equal

end TreeReader

/-- A pattern in braces is read just if it is a derivation with that value. -/
theorem PatternReader.read_eq_ok_iff (lexemes : List Lexeme) (pattern : Pattern) :
    start.read lexemes = .ok pattern ↔
      ∃ alternation : AlternationTree,
        lexemes = alternation.lexemes ++ [.closeBrace] ∧ alternation.value = pattern := by
  constructor
  · exact TreeReader.exists_of_read lexemes TreeReader.start pattern
  · rintro ⟨alternation, rfl, rfl⟩
    obtain ⟨reader, fed, closed⟩ := TreeReader.exists_feed_alternation alternation
    show TreeReader.start.patterns.read _ = _
    rw [TreeReader.read_feed _ _ _ _ fed, TreeReader.read_closeBrace, closed]

/-! ### Lines -/

namespace RuleLine

/-- Lexemes that a reader of trees takes have no fault in a tag class. -/
theorem classFault?_feed (read : List Lexeme) (reader after : TreeReader) (rest : List Lexeme)
    (fed : reader.feed read = some after) : classFault? (read ++ rest) = classFault? rest := by
  induction read generalizing reader with
  | nil => rfl
  | cons lexeme others inductionHypothesis =>
    obtain ⟨next, isNext, fedOthers⟩ := Option.bind_eq_some_iff.mp fed
    have ofOthers := inductionHypothesis next fedOthers
    cases lexeme with
    | tagClass body =>
      rw [TreeReader.next?] at isNext
      split at isNext
      · cases isNext
      · rename_i test readable
        rw [List.cons_append, classFault?, readable]
        exact ofOthers
    | _ => exact ofOthers

theorem classFault?_body (body : Option AlternationTree) :
    classFault? (bodyLexemes body) = none := by
  cases body with
  | none => rfl
  | some alternation =>
    obtain ⟨reader, fed, _⟩ := TreeReader.exists_feed_alternation alternation
    show classFault? (alternation.lexemes ++ [.closeBrace]) = none
    exact classFault?_feed _ _ _ _ fed

theorem classFault?_lexemes (line : LineTree) : classFault? line.lexemes = none := by
  obtain ⟨label, body, isPresent⟩ := line
  cases label <;> exact classFault?_body body

/-- What follows the label is read just if it is a body with that value. -/
theorem readBody_eq_ok_iff (lexemes : List Lexeme) (pattern : Option Pattern) :
    readBody lexemes = .ok pattern ↔
      ∃ body : Option AlternationTree,
        lexemes = bodyLexemes body ∧ body.map AlternationTree.value = pattern := by
  constructor
  · intro isRead
    cases lexemes with
    | nil =>
      cases isRead
      exact ⟨none, rfl, rfl⟩
    | cons lexeme rest =>
      cases lexeme with
      | openBrace =>
        obtain ⟨value, isValue, rfl⟩ := Outcome.map_eq_ok_iff.mp isRead
        obtain ⟨alternation, rfl, rfl⟩ := (PatternReader.read_eq_ok_iff _ _).mp isValue
        exact ⟨some alternation, rfl, rfl⟩
      | _ => cases isRead
  · rintro ⟨body, rfl, rfl⟩
    cases body with
    | none => rfl
    | some alternation =>
      have isValue := (PatternReader.read_eq_ok_iff _ _).mpr ⟨alternation, rfl, rfl⟩
      exact Outcome.map_eq_ok_iff.mpr ⟨alternation.value, isValue, rfl⟩

/-- Lexemes are read as a line just if a derivation of a line has these lexemes and this value. -/
theorem readParts_eq_ok_iff (lexemes : List Lexeme) (line : RuleLine) :
    readParts lexemes = .ok line ↔
      ∃ tree : LineTree, tree.lexemes = lexemes ∧ tree.value = line := by
  constructor
  · intro isRead
    unfold readParts at isRead
    split at isRead
    · cases isRead
    · rename_i name rest
      obtain ⟨pattern, isBody, rfl⟩ := Outcome.map_eq_ok_iff.mp isRead
      obtain ⟨body, rfl, rfl⟩ := (readBody_eq_ok_iff _ _).mp isBody
      exact ⟨⟨some name, body, rfl⟩, rfl, rfl⟩
    · cases isRead
    · cases isRead
    · rename_i notEmpty _ _ _
      obtain ⟨pattern, isBody, rfl⟩ := Outcome.map_eq_ok_iff.mp isRead
      obtain ⟨body, rfl, rfl⟩ := (readBody_eq_ok_iff _ _).mp isBody
      cases body with
      | none => exact absurd rfl notEmpty
      | some alternation => exact ⟨⟨none, some alternation, rfl⟩, rfl, rfl⟩
  · rintro ⟨⟨label, body, isPresent⟩, rfl, rfl⟩
    have isBody := (readBody_eq_ok_iff _ _).mpr ⟨body, rfl, rfl⟩
    cases label with
    | some name => exact Outcome.map_eq_ok_iff.mpr ⟨_, isBody, rfl⟩
    | none =>
      cases body with
      | none => cases isPresent
      | some alternation => exact Outcome.map_eq_ok_iff.mpr ⟨_, isBody, rfl⟩

theorem bodyLexemes_injective (first second : Option AlternationTree)
    (same : bodyLexemes first = bodyLexemes second) : first = second := by
  cases first with
  | none =>
    cases second with
    | none => rfl
    | some _ => cases same
  | some alternation =>
    cases second with
    | none => cases same
    | some other =>
      have inner := List.append_cancel_right (List.cons.inj same).2
      rw [TreeReader.lexemes_alternation_injective alternation other inner]

/-- A line has one derivation at most. -/
theorem lexemes_line_injective (first second : LineTree) (same : first.lexemes = second.lexemes) :
    first = second := by
  obtain ⟨label, body, isPresent⟩ := first
  obtain ⟨otherLabel, otherBody, isOtherPresent⟩ := second
  cases label with
  | none =>
    cases otherLabel with
    | none => rw [LineTree.mk.injEq]; exact ⟨rfl, bodyLexemes_injective _ _ same⟩
    | some name =>
      cases body <;> cases same
  | some name =>
    cases otherLabel with
    | none => cases otherBody <;> cases same
    | some otherName =>
      obtain ⟨rfl, sameBody⟩ : name = otherName ∧ bodyLexemes body = bodyLexemes otherBody := by
        simpa [LineTree.lexemes, labelLexemes] using same
      rw [LineTree.mk.injEq]
      exact ⟨rfl, bodyLexemes_injective _ _ sameBody⟩

/-- Lexemes are read as a line just if they are derived in full with that value. -/
theorem ofLexemes_eq_ok_iff (lexemes : List Lexeme) (line : RuleLine) :
    ofLexemes lexemes = .ok line ↔
      ∃ tree : LineTree, tree.lexemes = lexemes ∧ tree.value = line := by
  rw [← readParts_eq_ok_iff, ofLexemes, read]
  cases faulty : classFault? lexemes with
  | some fault =>
    refine iff_of_false (fun isRead => by cases isRead) fun isRead => ?_
    obtain ⟨tree, rfl, _⟩ := (readParts_eq_ok_iff _ _).mp isRead
    rw [classFault?_lexemes] at faulty
    cases faulty
  | none => exact Outcome.mapError_eq_ok_iff

/-- A list of lexemes is read as a line just if it is derived in full by the grammar of lines with
that value. There is one derivation at most, and where there is none the error is one of syntax. -/
theorem ofLexemes_iff_derivation (lexemes : List Lexeme) :
    (∀ line, ofLexemes lexemes = .ok line ↔
      ∃ tree : LineTree, tree.lexemes = lexemes ∧ tree.value = line) ∧
    (∀ first second : LineTree, first.lexemes = lexemes → second.lexemes = lexemes →
      first = second) ∧
    ((¬∃ tree : LineTree, tree.lexemes = lexemes) →
      ∃ error, ofLexemes lexemes = .error (.syntactic error)) := by
  refine ⟨ofLexemes_eq_ok_iff lexemes, ?_, ?_⟩
  · intro first second isFirst isSecond
    exact lexemes_line_injective first second (isFirst.trans isSecond.symm)
  · intro underivable
    cases isRead : ofLexemes lexemes with
    | ok line =>
      obtain ⟨tree, derived, _⟩ := (ofLexemes_eq_ok_iff lexemes line).mp isRead
      exact absurd ⟨tree, derived⟩ underivable
    | error error =>
      rw [ofLexemes] at isRead
      cases inner : read lexemes with
      | ok line => rw [inner] at isRead; cases isRead
      | error cause =>
        rw [inner] at isRead
        cases isRead
        exact ⟨cause, rfl⟩

end RuleLine

end ShallowParse
