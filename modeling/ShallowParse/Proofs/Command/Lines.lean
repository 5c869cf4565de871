/-
This file proves that a chunking job treats the lines of a text one by one. A line that
is not blank has a tree, which is written and reported as far as wanted, or it has none,
and then its fault is reported with its number and nothing else. The exit code tells
whether any line has no tree. The trees of two texts with a line feed between them are
those of each, because neither form of a sentence minds a carriage return at its end.
-/

import Mathlib.Data.List.Forall2
import ShallowParse.Command.Run
import ShallowParse.Proofs.Json.Lexing
import ShallowParse.Proofs.Outcome
import ShallowParse.Proofs.Text.Lines

namespace ShallowParse

/-! ### Formats -/

/-- Every tree can be written in every format of the library. -/
theorem FormatRegistry.exists_written {name : String} {format : Format}
    (found : standard.get? name = some format) (tree : Tree) :
    ∃ text, format.write tree = .ok text := by
  have areFormats : standard.formats =
      [Format.yaml, Format.json, Format.outline, Format.bracket] := by rfl
  have member := List.mem_of_find?_eq_some found
  simp only [areFormats, List.mem_cons, List.not_mem_nil, or_false] at member
  rcases member with rfl | rfl | rfl | rfl <;> exact ⟨_, rfl⟩

/-! ### Lines -/

/-- The lines of a text that are not blank, each with its number among all lines. -/
def sentenceLines (text : String) : List (String × Nat) :=
  ((Text.lines text).zipIdx 1).filter fun sentence => !Text.isBlankText sentence.1

theorem numberedFrom_eq (number : Nat) (lines : List String) :
    numberedFrom number lines =
      ((lines.zipIdx number).filter fun sentence => !Text.isBlankText sentence.1).map
        Prod.swap := by
  induction lines generalizing number with
  | nil => rfl
  | cons line lines inductionHypothesis =>
    rw [numberedFrom, inductionHypothesis, List.zipIdx_cons, List.filter_cons]
    dsimp only
    cases Text.isBlankText line <;> rfl

theorem numberedSentences_eq (text : String) :
    numberedSentences text = (sentenceLines text).map Prod.swap :=
  numberedFrom_eq 1 (Text.lines text)

theorem isBlankText_append_return (line : String) :
    Text.isBlankText (line ++ "\r") = Text.isBlankText line := by
  have isBlank : Text.isBlankText "\r" = true := by decide
  rw [Text.isBlankText_append, isBlank, Bool.and_true]

/-- A carriage return after a sentence does not matter in either form. -/
theorem readSentence_append_return (isJson : Bool) (line : String) :
    readSentence isJson (line ++ "\r") = readSentence isJson line := by
  have isReturn : (line ++ "\r").toList = line.toList ++ ['\r'] := String.toList_append
  cases isJson with
  | true =>
    show Token.ofJsonText (line ++ "\r") = Token.ofJsonText line
    rw [Token.ofJsonText, Token.ofJsonText, JsonValue.ofText?, JsonValue.ofText?, isReturn,
      JsonLexeme.ofChars?_append_return]
  | false =>
    show Token.ofLine (line ++ "\r") = Token.ofLine line
    rw [Token.ofLine, Token.ofLine, Text.words, Text.words, isReturn,
      Text.wordsFrom_append_blank (by decide)]

namespace ChunkJob

/-! ### One line -/

/-- The tree of a line, if its words can be read and chunked. -/
def tree (job : ChunkJob) (line : String) : Except MalformedInput Tree :=
  (readSentence job.isJson line).bind job.chunker.chunk

/-- What a line with a tree adds to the errors: its log and, if wanted, its trace. -/
def sentenceReport (job : ChunkJob) (number : Nat) (tokens : List Token)
    (applications : List Application) : String :=
  job.verbosity.written (job.chunker.log tokens) ++
    if job.traces then
      String.join (applications.map fun application => lineReport number application.message)
    else ""

theorem chunkSentence_eq (job : ChunkJob) (number : Nat) (tokens : List Token) :
    job.chunkSentence number tokens =
      (job.chunker.chunkTraced tokens).map fun (tree, applications) =>
        (tree, job.sentenceReport number tokens applications) := by
  rw [chunkSentence, Chunker.chunkTraced, Chunker.chunk]
  cases isTraced : job.traces <;> cases job.chunker.run tokens <;>
    simp [Except.map, sentenceReport, isTraced]

theorem tree_of_traced {job : ChunkJob} {line : String} {tokens : List Token} {tree : Tree}
    {applications : List Application} (read : readSentence job.isJson line = .ok tokens)
    (traced : job.chunker.chunkTraced tokens = .ok (tree, applications)) :
    job.tree line = .ok tree := by
  obtain ⟨run, isRun, isTraced⟩ := Outcome.map_eq_ok_iff.mp traced
  rw [ChunkJob.tree, read]
  exact Outcome.map_eq_ok_iff.mpr ⟨run, isRun, congrArg Prod.fst isTraced⟩

/-- A line has no tree, and then it is only reported; or it has one, which is written. -/
theorem chunkLine_cases {job : ChunkJob}
    (writes : ∀ tree, ∃ text, job.format.write tree = .ok text) (number : Nat) (line : String) :
    (∃ error, job.tree line = .error error ∧
      job.chunkLine number line = ⟨"", lineReport number error.message, true⟩) ∨
    ∃ tokens tree applications text, readSentence job.isJson line = .ok tokens ∧
      job.chunker.chunkTraced tokens = .ok (tree, applications) ∧ job.tree line = .ok tree ∧
      job.format.write tree = .ok text ∧
      job.chunkLine number line =
        ⟨text, job.sentenceReport number tokens applications, false⟩ := by
  rw [tree, chunkLine]
  cases readSentence job.isJson line with
  | error error => exact Or.inl ⟨error, rfl, rfl⟩
  | ok tokens =>
    simp only [Except.bind, chunkSentence_eq, Chunker.chunk, Chunker.chunkTraced]
    cases isRun : job.chunker.run tokens with
    | error error => exact Or.inl ⟨error, rfl, rfl⟩
    | ok run =>
      obtain ⟨text, written⟩ := writes ⟨job.chunker.rootLabel, run.nodes⟩
      refine Or.inr ⟨tokens, _, run.applications, text, rfl, ?_, rfl, written, ?_⟩
      · rw [isRun]
        rfl
      · simp [Except.map, written]

/-! ### All lines -/

/-- The trees of the lines of a text that have one, in order. -/
def trees (job : ChunkJob) (text : String) : List Tree :=
  (sentenceLines text).filterMap fun sentence => (job.tree sentence.1).toOption

/-- The number of lines of a text that have no tree, apart from blank ones. -/
def failures (job : ChunkJob) (text : String) : Nat :=
  (sentenceLines text).countP fun sentence => (job.tree sentence.1).toOption.isNone

/-- Whether a text is what a line with its number adds to the errors: just one report if the line
has no tree. -/
structure Reports (job : ChunkJob) (sentence : String × Nat) (report : String) : Prop where
  failed : ∀ error, job.tree sentence.1 = .error error →
    report = lineReport sentence.2 error.message
  chunked : ∀ tokens tree applications, readSentence job.isJson sentence.1 = .ok tokens →
    job.chunker.chunkTraced tokens = .ok (tree, applications) →
    report = job.sentenceReport sentence.2 tokens applications

/-- Whether an outcome is what the lines of a text come to, each by itself. -/
structure Settles (job : ChunkJob) (text : String) (outcome : Outcome) : Prop where
  /-- The trees are written one after the other, and nothing else is. -/
  output : ∃ texts, List.Forall₂ (fun tree text => job.format.write tree = .ok text)
    (job.trees text) texts ∧ outcome.output = String.join texts
  /-- The warnings of the grammar come first and the number of failures last. -/
  errors : ∃ reports, List.Forall₂ job.Reports (sentenceLines text) reports ∧
    outcome.errors = job.verbosity.written job.chunker.grammar.log ++ String.join reports ++
      if job.failures text = 0 then ""
      else job.verbosity.written
        [⟨.info, toString (job.failures text) ++ " sentence(s) could not be chunked"⟩]
  code : outcome.code = if job.failures text = 0 then 0 else 1

/-- What the lines of a text come to that are not blank. -/
def results (job : ChunkJob) (text : String) : List LineResult :=
  (sentenceLines text).map fun sentence => job.chunkLine sentence.2 sentence.1

theorem run_eq (job : ChunkJob) (text : String) :
    job.run text = ⟨if (job.results text).any LineResult.failed then 1 else 0,
      String.join ((job.results text).map LineResult.output),
      String.join ((job.results text).map LineResult.errors) ++
        job.failureCount (job.results text)⟩ := by
  have areResults : job.results text =
      (numberedSentences text).map fun sentence => job.chunkLine sentence.1 sentence.2 := by
    rw [results, numberedSentences_eq, List.map_map]
    rfl
  rw [areResults]
  rfl

section

variable {job : ChunkJob} (writes : ∀ tree, ∃ text, job.format.write tree = .ok text)

include writes

theorem exists_texts (lines : List (String × Nat)) :
    ∃ texts, List.Forall₂ (fun tree text => job.format.write tree = .ok text)
        (lines.filterMap fun sentence => (job.tree sentence.1).toOption) texts ∧
      String.join (lines.map fun sentence => (job.chunkLine sentence.2 sentence.1).output) =
        String.join texts := by
  induction lines with
  | nil => exact ⟨[], List.Forall₂.nil, rfl⟩
  | cons sentence lines inductionHypothesis =>
    obtain ⟨texts, areWritten, isOutput⟩ := inductionHypothesis
    rw [List.map_cons, String.join_cons, List.filterMap_cons]
    rcases chunkLine_cases writes sentence.2 sentence.1 with
      ⟨error, failed, isResult⟩ |
      ⟨tokens, tree, applications, text, _, _, chunked, written, isResult⟩
    · rw [failed, isResult]
      exact ⟨texts, areWritten, (String.empty_append).trans isOutput⟩
    · rw [chunked, isResult, isOutput]
      exact ⟨text :: texts, List.Forall₂.cons written areWritten, String.join_cons.symm⟩

theorem reports_chunkLine (sentence : String × Nat) :
    job.Reports sentence (job.chunkLine sentence.2 sentence.1).errors := by
  rcases chunkLine_cases writes sentence.2 sentence.1 with
    ⟨error, failed, isResult⟩ |
    ⟨tokens, tree, applications, text, read, traced, chunked, _, isResult⟩
  · rw [isResult]
    refine ⟨fun other isOther => ?_, fun tokens tree applications read traced => ?_⟩
    · rw [Except.error.inj (failed.symm.trans isOther)]
    · exact nomatch failed.symm.trans (tree_of_traced read traced)
  · rw [isResult]
    refine ⟨fun other isOther => ?_, fun tokens' tree' applications' read' traced' => ?_⟩
    · exact nomatch chunked.symm.trans isOther
    · obtain rfl := Except.ok.inj (read.symm.trans read')
      cases traced.symm.trans traced'
      rfl

theorem failed_chunkLine (sentence : String × Nat) :
    (job.chunkLine sentence.2 sentence.1).failed = (job.tree sentence.1).toOption.isNone := by
  rcases chunkLine_cases writes sentence.2 sentence.1 with
    ⟨error, failed, isResult⟩ | ⟨tokens, tree, applications, text, _, _, chunked, _, isResult⟩
  · rw [isResult, failed]
    rfl
  · rw [isResult, chunked]
    rfl

theorem countP_results (text : String) :
    (job.results text).countP LineResult.failed = job.failures text := by
  rw [results, List.countP_map, failures]
  refine List.countP_congr fun sentence _ => ?_
  rw [Function.comp_apply, failed_chunkLine writes]

/-- A job treats each line of a text by itself. -/
theorem settles_run (text : String) :
    job.Settles text
      ((job.run text).afterErrors (job.verbosity.written job.chunker.grammar.log)) := by
  obtain ⟨texts, areWritten, isOutput⟩ := exists_texts writes (sentenceLines text)
  refine ⟨⟨texts, areWritten, ?_⟩, ⟨(job.results text).map LineResult.errors, ?_, ?_⟩, ?_⟩
  · rw [run_eq, results, Outcome.afterErrors, List.map_map]
    exact isOutput
  · rw [results, List.map_map, List.forall₂_map_right_iff, List.forall₂_same]
    exact fun sentence _ => reports_chunkLine writes sentence
  · rw [run_eq, Outcome.afterErrors, failureCount, ← List.countP_eq_length_filter,
      countP_results writes, String.append_assoc]
  · rw [run_eq, Outcome.afterErrors]
    dsimp only
    split
    · rename_i someFailed
      have isPositive := List.countP_pos_iff.mpr (List.any_eq_true.mp someFailed)
      rw [countP_results writes] at isPositive
      exact (if_neg (Nat.ne_of_gt isPositive)).symm
    · rename_i noneFailed
      have isZero : (job.results text).countP LineResult.failed = 0 :=
        List.countP_eq_zero.mpr fun result member failed =>
          noneFailed (List.any_eq_true.mpr ⟨result, member, failed⟩)
      rw [countP_results writes] at isZero
      exact (if_pos isZero).symm

end

/-! ### Two texts -/

theorem trees_eq_flatMap (job : ChunkJob) (text : String) :
    job.trees text = (Text.lines text).flatMap fun line =>
      if Text.isBlankText line then [] else (job.tree line).toOption.toList := by
  rw [trees, sentenceLines]
  generalize 1 = number, Text.lines text = lines
  induction lines generalizing number with
  | nil => rfl
  | cons line lines inductionHypothesis =>
    rw [List.zipIdx_cons, List.filter_cons, List.flatMap_cons, ← inductionHypothesis (number + 1)]
    dsimp only
    cases Text.isBlankText line with
    | true => rfl
    | false =>
      show List.filterMap _ ((line, number) :: _) = _
      rw [List.filterMap_cons]
      cases (job.tree line).toOption <;> rfl

/-- Two texts with a line feed between them have the trees of each. -/
theorem trees_append_feed (job : ChunkJob) (first second : String) :
    job.trees (first ++ "\n" ++ second) = job.trees first ++ job.trees second := by
  simp only [trees_eq_flatMap]
  refine Text.flatMap_lines_append_feed rfl (fun line => ?_) first second
  rw [isBlankText_append_return, tree, readSentence_append_return]
  rfl

/-- Trees are written in one way only. -/
theorem texts_eq {job : ChunkJob} {trees : List Tree} {texts others : List String}
    (areWritten : List.Forall₂ (fun tree text => job.format.write tree = .ok text) trees texts)
    (areOthers : List.Forall₂ (fun tree text => job.format.write tree = .ok text) trees others) :
    texts = others := by
  induction areWritten generalizing others with
  | nil => cases areOthers; rfl
  | cons written _ inductionHypothesis =>
    cases areOthers with
    | cons isOther areOthers =>
      rw [Except.ok.inj (written.symm.trans isOther), inductionHypothesis areOthers]

theorem Settles.output_append_feed {job : ChunkJob} {first second : String}
    {both ofFirst ofSecond : Outcome} (settles : job.Settles (first ++ "\n" ++ second) both)
    (settlesFirst : job.Settles first ofFirst) (settlesSecond : job.Settles second ofSecond) :
    both.output = ofFirst.output ++ ofSecond.output := by
  obtain ⟨texts, areWritten, isOutput⟩ := settles.output
  obtain ⟨firsts, areFirsts, isFirst⟩ := settlesFirst.output
  obtain ⟨seconds, areSeconds, isSecond⟩ := settlesSecond.output
  rw [trees_append_feed] at areWritten
  rw [isOutput, isFirst, isSecond, texts_eq areWritten (List.rel_append areFirsts areSeconds),
    String.join_append]

/-- Neither tracing nor logging changes what is written or the exit code. -/
theorem Settles.same {job : ChunkJob} {traces : Bool} {verbosity : Verbosity} {text : String}
    {outcome other : Outcome} (settles : job.Settles text outcome)
    (settlesOther :
      Settles { job with traces := traces, verbosity := verbosity } text other) :
    other.output = outcome.output ∧ other.code = outcome.code := by
  obtain ⟨texts, areWritten, isOutput⟩ := settles.output
  obtain ⟨others, areOthers, isOther⟩ := settlesOther.output
  refine ⟨?_, settlesOther.code.trans settles.code.symm⟩
  rw [isOutput, isOther, texts_eq areWritten areOthers]

end ChunkJob

end ShallowParse
