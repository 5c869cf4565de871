/-
This file carries what is known of chunking jobs over to the program. A program that
gets so far as to chunk a text does what the lines of the text come to. What it writes
and its exit code do not depend on whether it traces or what it logs, and the argument
for tracing changes nothing but that.
-/

import ShallowParse.Proofs.Command.Lines
import ShallowParse.Proofs.Grammar.Acceptance

namespace ShallowParse

/-! ### The whole program -/

namespace Invocation

/-- Whether an invocation of the command `chunk` gets so far that it reads a text and chunks it as
a job says. -/
structure Starts (invocation : Invocation) (surroundings : Surroundings) (job : ChunkJob)
    (text : String) : Prop where
  isChunk : invocation.command = .chunk
  isJson : invocation.has .json = job.isJson
  isSet : ∃ settings, invocation.settings surroundings = .ok settings ∧
    Verbosity.ofName? settings.logLevel = some job.verbosity ∧
    FormatRegistry.standard.get? settings.format = some job.format ∧
    invocation.chunker surroundings settings = .ok job.chunker ∧
    (invocation.has .trace || settings.traces) = job.traces
  isInput : invocation.input surroundings = .ok text

/-- Whether invocations say the same but for tracing. -/
structure SameButTrace (invocation other : Invocation) : Prop where
  command : other.command = invocation.command
  path : other.path = invocation.path
  value? : ∀ option ≠ .trace, other.value? option = invocation.value? option

/-- The argument for tracing says nothing else. -/
theorem sameButTrace_cons (invocation : Invocation) (value : String) :
    invocation.SameButTrace
      { invocation with options := (.trace, value) :: invocation.options } := by
  refine ⟨rfl, rfl, fun option notTrace => ?_⟩
  rw [value?, List.lookup_cons, beq_false_of_ne notTrace]
  rfl

theorem Starts.settles {invocation : Invocation} {surroundings : Surroundings} {job : ChunkJob}
    {text : String} (starts : invocation.Starts surroundings job text) :
    job.Settles text (invocation.run surroundings) := by
  obtain ⟨isChunk, isJson, ⟨settings, isSettings, isVerbosity, isFormat, isChunker, isTraced⟩,
    isInput⟩ := starts
  have isRun : invocation.run surroundings =
      (job.run text).afterErrors (job.verbosity.written job.chunker.grammar.log) := by
    rw [run, isSettings]
    dsimp only
    rw [isVerbosity]
    dsimp only
    rw [isChunk]
    dsimp only
    rw [runChunk, isFormat]
    dsimp only
    rw [withChunker, isChunker]
    dsimp only
    rw [withInput, isInput, isJson, isTraced]
  rw [isRun]
  exact ChunkJob.settles_run (FormatRegistry.exists_written isFormat) text

theorem Starts.retraced {invocation other : Invocation} {surroundings : Surroundings}
    {job : ChunkJob} {text : String} (starts : invocation.Starts surroundings job text)
    (same : invocation.SameButTrace other) :
    ∃ traces, other.Starts surroundings { job with traces := traces } text := by
  obtain ⟨isChunk, isJson, ⟨settings, isSettings, isVerbosity, isFormat, isChunker, isTraced⟩,
    isInput⟩ := starts
  refine ⟨other.has .trace || settings.traces, same.command.trans isChunk, ?_,
    ⟨settings, ?_, isVerbosity, isFormat, ?_, rfl⟩, ?_⟩
  · rw [has, same.value? .json (by decide)]
    exact isJson
  · simp only [Invocation.settings, same.value? .config (by decide),
      same.value? .logLevel (by decide), same.value? .format (by decide)]
    exact isSettings
  · rw [chunker, same.value? .grammar (by decide)]
    exact isChunker
  · rw [input, same.path]
    exact isInput

end Invocation

/-- Whether the program, called with some arguments, gets so far that it chunks a text as a job
says. -/
def StartsChunking (surroundings : Surroundings) (arguments : List String) (job : ChunkJob)
    (text : String) : Prop :=
  ∃ invocation, Invocation.ofArguments arguments = .ok invocation ∧
    invocation.Starts surroundings job text

theorem StartsChunking.settles {surroundings : Surroundings} {arguments : List String}
    {job : ChunkJob} {text : String} (starts : StartsChunking surroundings arguments job text) :
    job.Settles text (runProgram surroundings arguments) := by
  obtain ⟨invocation, isInvocation, starts⟩ := starts
  rw [runProgram, isInvocation]
  exact starts.settles

/-- Chunking treats the lines of a text one by one. The trees of the lines that have one are
written in order; every other line that is not blank is reported once, with its number, and makes
the exit code 1. So a text of two parts gives the output of the first and then that of the second,
and tracing changes neither the output nor the exit code, be it switched by the settings or by an
argument. -/
theorem runProgram_settles_lines {surroundings : Surroundings} {arguments : List String}
    {job : ChunkJob} {text : String} (starts : StartsChunking surroundings arguments job text) :
    job.Settles text (runProgram surroundings arguments) ∧
    (∀ first second, text = first ++ "\n" ++ second →
      ∀ surroundings₁ arguments₁ surroundings₂ arguments₂,
        StartsChunking surroundings₁ arguments₁ job first →
        StartsChunking surroundings₂ arguments₂ job second →
        (runProgram surroundings arguments).output =
          (runProgram surroundings₁ arguments₁).output ++
            (runProgram surroundings₂ arguments₂).output) ∧
    (∀ surroundings' arguments' traces verbosity,
      StartsChunking surroundings' arguments'
        { job with traces := traces, verbosity := verbosity } text →
      (runProgram surroundings' arguments').output = (runProgram surroundings arguments).output ∧
        (runProgram surroundings' arguments').code = (runProgram surroundings arguments).code) ∧
    (∀ arguments' invocation other, Invocation.ofArguments arguments = .ok invocation →
      Invocation.ofArguments arguments' = .ok other → invocation.SameButTrace other →
      (runProgram surroundings arguments').output = (runProgram surroundings arguments).output ∧
        (runProgram surroundings arguments').code =
          (runProgram surroundings arguments).code) := by
  refine ⟨starts.settles, ?_, ?_, ?_⟩
  · rintro first second rfl surroundings₁ arguments₁ surroundings₂ arguments₂ startsFirst
      startsSecond
    exact starts.settles.output_append_feed startsFirst.settles startsSecond.settles
  · intro surroundings' arguments' traces verbosity startsOther
    exact starts.settles.same startsOther.settles
  · intro arguments' invocation other isInvocation isOther same
    obtain ⟨_, isSame, startsJob⟩ := starts
    obtain rfl := Except.ok.inj (isInvocation.symm.trans isSame)
    obtain ⟨traces, startsTraced⟩ := startsJob.retraced same
    have settlesTraced := StartsChunking.settles ⟨other, isOther, startsTraced⟩
    exact (StartsChunking.settles ⟨invocation, isInvocation, startsJob⟩).same settlesTraced

/-- What the standard settings chunk. -/
def standardJob : ChunkJob :=
  ⟨⟨Reference.ready, "S"⟩, Format.bracket, false, false, some .warn⟩

theorem startsChunking_standard (text : String) :
    StartsChunking (.inDirectory [] (.ok text)) ["chunk"] standardJob text := by
  let settings : Settings := ⟨"S", Settings.defaultRules, "bracket", false, "warn"⟩
  have read : Rule.allOfText settings.source = .ok Reference.rules := by decide +kernel
  have isChunker : settings.chunker = .ok ⟨Reference.ready, "S"⟩ := by
    rw [Settings.chunker, Grammar.ofText, read]
    exact congrArg (Except.map _) Reference.grammar_eq
  refine ⟨⟨.chunk, [], none⟩, rfl, rfl, rfl, ⟨settings, rfl, by decide, rfl, ?_, rfl⟩, rfl⟩
  exact congrArg (Except.mapError _) isChunker

/-- A sentence, a blank line, and a line whose word has no tag. -/
def mixedText : String := "the/DT rose/NN\n\nrose"

theorem runProgram_settles_lines_mixed :
    StartsChunking (.inDirectory [] (.ok (mixedText ++ "\n" ++ "bloom/VBP"))) ["chunk"] standardJob
        (mixedText ++ "\n" ++ "bloom/VBP") ∧
      StartsChunking (.inDirectory [] (.ok mixedText)) ["chunk"] standardJob mixedText ∧
      runProgram (.inDirectory [] (.ok mixedText)) ["chunk"] =
        ⟨1, "(S (NP the/DT rose/NN))\n",
          "line 3: Malformed input at token 1: 'rose' has no /TAG\n"⟩ ∧
      (runProgram (.inDirectory [] (.ok (mixedText ++ "\n" ++ "bloom/VBP"))) ["chunk"]).output =
        "(S (NP the/DT rose/NN))\n(S (VP bloom/VBP))\n" ∧
      (runProgram (.inDirectory [] (.ok (mixedText ++ "\n" ++ "bloom/VBP")))
        ["chunk", "--trace"]).output = "(S (NP the/DT rose/NN))\n(S (VP bloom/VBP))\n" := by
  have starts := startsChunking_standard (mixedText ++ "\n" ++ "bloom/VBP")
  obtain ⟨_, parted, _, traced⟩ := runProgram_settles_lines starts
  have ofFirst : runProgram (.inDirectory [] (.ok mixedText)) ["chunk"] =
      ⟨1, "(S (NP the/DT rose/NN))\n",
        "line 3: Malformed input at token 1: 'rose' has no /TAG\n"⟩ := by decide +kernel
  have ofSecond : (runProgram (.inDirectory [] (.ok "bloom/VBP")) ["chunk"]).output =
      "(S (VP bloom/VBP))\n" := by decide +kernel
  have isOutput := parted mixedText "bloom/VBP" rfl _ _ _ _ (startsChunking_standard mixedText)
    (startsChunking_standard "bloom/VBP")
  rw [ofFirst, ofSecond] at isOutput
  have isTraced := traced ["chunk", "--trace"] ⟨.chunk, [], none⟩ _ rfl rfl
    (Invocation.sameButTrace_cons _ "")
  exact ⟨starts, startsChunking_standard mixedText, ofFirst, isOutput, isTraced.1.trans isOutput⟩

end ShallowParse
