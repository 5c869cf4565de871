/-
This file carries out commands. A command is given what the files and the standard
input hold, and returns what it writes and its exit code.

The command `chunk` goes through its input line by line. Every line that is not
blank is one sentence, and what a line adds to the output does not depend on the
other lines.
-/

import ShallowParse.Command.Arguments
import ShallowParse.Command.Surroundings
import ShallowParse.Format
import ShallowParse.Glossary
import ShallowParse.Settings
import ShallowParse.Tagged.Json
import ShallowParse.Tagged.Slashed

namespace ShallowParse

/-! ### Outcomes -/

/-- What a command writes, and its exit code. -/
structure Outcome where
  code : Nat
  output : String
  errors : String
deriving DecidableEq

namespace Outcome

def success (output : String) : Outcome := ⟨0, output, ""⟩

/-- An end with one line that says why. -/
def failure (message : String) : Outcome := ⟨1, "", message ++ "\n"⟩

/-- An outcome after a text on the side of errors. -/
def afterErrors (errors : String) (outcome : Outcome) : Outcome :=
  { outcome with errors := errors ++ outcome.errors }

end Outcome

/-! ### Logging -/

/-- The least urgent level that is written, or `none` where nothing is. -/
abbrev Verbosity := Option LogLevel

namespace Verbosity

def levels : List LogLevel := [.error, .warn, .info, .debug, .trace]

/-- The verbosity with a name in letters of either case. -/
def ofName? (name : String) : Option Verbosity :=
  let upper := String.ofList (name.toList.map Char.toUpper)
  if upper = "OFF" then some none
  else (levels.find? fun level => level.name == upper).map some

def allows (verbosity : Verbosity) (level : LogLevel) : Bool :=
  verbosity.any fun least => level.rank ≤ least.rank

/-- The lines of the records that are written. -/
def written (verbosity : Verbosity) (records : List LogRecord) : String :=
  String.join ((records.filter fun record => verbosity.allows record.level).map fun record =>
    " [" ++ record.level.name ++ "] " ++ record.message ++ "\n")

end Verbosity

/-! ### Sentences -/

/-- Lines, the first of which has the given number, without blank ones. -/
def numberedFrom (number : Nat) : List String → List (Nat × String)
  | [] => []
  | line :: lines =>
    if Text.isBlankText line then numberedFrom (number + 1) lines
    else (number, line) :: numberedFrom (number + 1) lines

/-- The lines of a text that are not blank with their numbers, counted from 1. -/
def numberedSentences (text : String) : List (Nat × String) :=
  numberedFrom 1 (Text.lines text)

/-- Reads a sentence in one of the two forms. -/
def readSentence (isJson : Bool) (line : String) : Except MalformedInput (List Token) :=
  if isJson then Token.ofJsonText line else Token.ofLine line

def lineReport (number : Nat) (message : String) : String :=
  "line " ++ toString number ++ ": " ++ message ++ "\n"

/-! ### Chunking -/

/-- How sentences are chunked and written. -/
structure ChunkJob where
  chunker : Chunker
  format : Format
  isJson : Bool
  traces : Bool
  verbosity : Verbosity

/-- What one line adds to the output and to the errors. -/
structure LineResult where
  output : String
  errors : String
  failed : Bool

namespace ChunkJob

/-- The tree of the sentence on a line, and what is reported of it. A trace also names the
phrases. -/
def chunkSentence (job : ChunkJob) (number : Nat) (tokens : List Token) :
    Except MalformedInput (Tree × String) :=
  let log := job.verbosity.written (job.chunker.log tokens)
  if job.traces then
    (job.chunker.chunkTraced tokens).map fun (tree, applications) =>
      (tree, log ++ String.join (applications.map fun application =>
        lineReport number application.message))
  else (job.chunker.chunk tokens).map fun tree => (tree, log)

def chunkLine (job : ChunkJob) (number : Nat) (line : String) : LineResult :=
  match (readSentence job.isJson line).bind (job.chunkSentence number) with
  | .error error => ⟨"", lineReport number error.message, true⟩
  | .ok (tree, reports) =>
    match job.format.write tree with
    | .ok text => ⟨text, reports, false⟩
    | .error error => ⟨"", reports ++ lineReport number error.message, true⟩

/-- How many sentences failed, unless none did. -/
def failureCount (job : ChunkJob) (results : List LineResult) : String :=
  let count := (results.filter LineResult.failed).length
  if count = 0 then ""
  else
    job.verbosity.written
      [⟨.info, toString count ++ " sentence(s) could not be chunked"⟩]

/-- Chunks all sentences of a text. -/
def run (job : ChunkJob) (text : String) : Outcome :=
  let results := (numberedSentences text).map fun (number, line) => job.chunkLine number line
  ⟨if results.any LineResult.failed then 1 else 0,
    String.join (results.map LineResult.output),
    String.join (results.map LineResult.errors) ++ job.failureCount results⟩

end ChunkJob

/-! ### Commands -/

namespace Invocation

/-- The paths under which a file with settings is looked for: the path as it is, and the path up to
the name that it ends in with an ending after it. -/
def settingsPaths (path : String) : List String :=
  path :: ((Path.upToName? path).map (· ++ ".toml")).toList

/-- The text of the file with the settings. -/
def readSettingsFile (surroundings : Surroundings) (path : String) :
    Except SettingsError String :=
  match (settingsPaths path).find? surroundings.isFile with
  | some found => (surroundings.readFile found).mapError fun _ => .unreadableFile
  | none => .error (.missingFile path)

/-- The settings with what the options say. -/
def settings (invocation : Invocation) (surroundings : Surroundings) :
    Except SettingsError Settings := do
  let file ← (invocation.value? .config).mapM (readSettingsFile surroundings)
  let override (option : ProgramOption) (path : String) : List (String × ConfigValue) :=
    ((invocation.value? option).map fun value => (path, ConfigValue.text value)).toList
  Settings.load file.toList
    (override .logLevel "logging.level" ++ override .format "output.format")

/-- The text that the command reads. -/
def input (invocation : Invocation) (surroundings : Surroundings) : Except ReadFault String :=
  match invocation.path with
  | some path => surroundings.readFile path
  | none => surroundings.standardInput

/-- The grammar of a file. -/
def readGrammar (surroundings : Surroundings) (path : String) : Except String Grammar := do
  let text ← (surroundings.readFile path).mapError fun fault =>
    "Error reading grammar file: " ++ fault.message
  (Grammar.ofText text).mapError GrammarError.message

/-- The chunker with the rules of a grammar file, if one is given, or else of the settings. -/
def chunker (invocation : Invocation) (surroundings : Surroundings) (settings : Settings) :
    Except String Chunker :=
  match invocation.value? .grammar with
  | some path =>
    (readGrammar surroundings path).map fun grammar => ⟨grammar, settings.rootLabel⟩
  | none => settings.chunker.mapError GrammarError.message

/-- What follows with the text that the command reads. -/
def withInput (invocation : Invocation) (surroundings : Surroundings) (goOn : String → Outcome) :
    Outcome :=
  match invocation.input surroundings with
  | .ok text => goOn text
  | .error fault => .failure ("Error reading input: " ++ fault.message)

/-- What follows with the chunker, after the log of its grammar. -/
def withChunker (invocation : Invocation) (surroundings : Surroundings) (settings : Settings)
    (verbosity : Verbosity) (goOn : Chunker → Outcome) : Outcome :=
  match invocation.chunker surroundings settings with
  | .ok chunker => (goOn chunker).afterErrors (verbosity.written chunker.grammar.log)
  | .error message => .failure message

def runChunk (invocation : Invocation) (surroundings : Surroundings) (settings : Settings)
    (verbosity : Verbosity) : Outcome :=
  match FormatRegistry.standard.get? settings.format with
  | none =>
    .failure ("Unknown format '" ++ settings.format ++ "'. Available formats: " ++
      ", ".intercalate FormatRegistry.standard.names)
  | some format =>
    invocation.withChunker surroundings settings verbosity fun chunker =>
      invocation.withInput surroundings
        (ChunkJob.run ⟨chunker, format, invocation.has .json,
          invocation.has .trace || settings.traces, verbosity⟩)

def runGrammar (invocation : Invocation) (surroundings : Surroundings) (settings : Settings)
    (verbosity : Verbosity) : Outcome :=
  invocation.withChunker surroundings settings verbosity fun chunker =>
    .success chunker.grammar.written

/-- The words of all sentences, or the report of the first sentence that cannot be read. -/
def readSentences (isJson : Bool) : List (Nat × String) → Except String (List Token)
  | [] => .ok []
  | (number, line) :: lines => do
    let tokens ← (readSentence isJson line).mapError fun error =>
      "line " ++ toString number ++ ": " ++ error.message
    return tokens ++ (← readSentences isJson lines)

def runGlossary (invocation : Invocation) (surroundings : Surroundings) : Outcome :=
  invocation.withInput surroundings fun text =>
    match readSentences (invocation.has .json) (numberedSentences text) with
    | .error message => .failure message
    | .ok tokens =>
      .success (String.join ((Glossary.ofTokens tokens).map fun (tag, description) =>
        tag ++ "\t" ++ description ++ "\n"))

/-- The formats with their descriptions, in the order of their names. -/
def formatList : String :=
  let registry := FormatRegistry.standard
  "Available formats:\n\n" ++
    String.join ((registry.names.filterMap registry.get?).map fun format =>
      "  " ++ format.name ++ "\n    " ++ format.description ++ "\n")

/-- Carries out a command. -/
def run (invocation : Invocation) (surroundings : Surroundings) : Outcome :=
  match invocation.settings surroundings with
  | .error error => .failure ("Configuration error: " ++ error.message)
  | .ok settings =>
    match Verbosity.ofName? settings.logLevel with
    | none => .failure ("Invalid log level '" ++ settings.logLevel ++ "'")
    | some verbosity =>
      match invocation.command with
      | .chunk => invocation.runChunk surroundings settings verbosity
      | .grammar => invocation.runGrammar surroundings settings verbosity
      | .glossary => invocation.runGlossary surroundings
      | .listFormats => .success formatList

/-- The paths of the files that a command may read besides files with settings. -/
def inputPaths (invocation : Invocation) : List String :=
  (invocation.value? .grammar).toList ++ invocation.path.toList

/-- Whether the command may read the standard input. -/
def readsStandardInput (invocation : Invocation) : Bool :=
  invocation.command.readsInput && invocation.path.isNone

end Invocation

/-! ### The program -/

def version : String := "tagchunk 0.1.0\n"

/-- A short help text. The options and what they do are left out. -/
def usage : String :=
  "A shallow chunker for part-of-speech tagged sentences\n\n" ++
    "Usage: tagchunk [OPTIONS] <COMMAND>\n\nCommands: " ++
    ", ".intercalate (CommandName.all.map CommandName.name) ++ "\n"

/-- What the program does where its arguments name no command to carry out. -/
def ArgumentStop.outcome : ArgumentStop → Outcome
  | helpWanted => .success usage
  | versionWanted => .success version
  | misused => ⟨2, "", usage⟩

/-- The whole program. -/
def runProgram (surroundings : Surroundings) (arguments : List String) : Outcome :=
  match Invocation.ofArguments arguments with
  | .ok invocation => invocation.run surroundings
  | .error stop => stop.outcome

end ShallowParse
