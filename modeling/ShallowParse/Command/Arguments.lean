/-
This file reads the arguments of the program: one command, the options of the
command, and two options that may also stand before it.

An option is given by its name after two dashes or by its letter after one. Its
value is the next argument, or stands in the same argument after an equals sign;
after a letter the sign may be left out. Two dashes alone end the options. An
option may be given once before the command and once after it, where the latter
counts.
-/

namespace ShallowParse

/-! ### Options and commands -/

inductive ProgramOption where
  | config
  | logLevel
  | format
  | grammar
  | json
  | trace
deriving DecidableEq

namespace ProgramOption

def name : ProgramOption → String
  | config => "config"
  | logLevel => "log-level"
  | format => "format"
  | grammar => "grammar"
  | json => "json"
  | trace => "trace"

def letter? : ProgramOption → Option Char
  | config => some 'c'
  | format => some 'f'
  | grammar => some 'g'
  | logLevel | json | trace => none

def takesValue : ProgramOption → Bool
  | config | logLevel | format | grammar => true
  | json | trace => false

/-- The options that may stand before the command and after every command. -/
def shared : List ProgramOption := [config, logLevel]

end ProgramOption

inductive CommandName where
  | chunk
  | grammar
  | glossary
  | listFormats
deriving DecidableEq

namespace CommandName

def all : List CommandName := [chunk, grammar, glossary, listFormats]

def name : CommandName → String
  | chunk => "chunk"
  | grammar => "grammar"
  | glossary => "glossary"
  | listFormats => "list-formats"

def ofName? (name : String) : Option CommandName :=
  all.find? fun command => command.name == name

/-- The options that only this command has. -/
def options : CommandName → List ProgramOption
  | chunk => [.format, .grammar, .json, .trace]
  | grammar => [.grammar]
  | glossary => [.json]
  | listFormats => []

/-- Whether the command reads sentences, from a file if one is named. -/
def readsInput : CommandName → Bool
  | chunk | glossary => true
  | grammar | listFormats => false

end CommandName

/-! ### Invocations -/

/-- A command with its options and the file it reads. -/
structure Invocation where
  command : CommandName
  /-- The options that are given, those that count first. One without a value has the empty one. -/
  options : List (ProgramOption × String)
  path : Option String

namespace Invocation

def value? (invocation : Invocation) (option : ProgramOption) : Option String :=
  invocation.options.lookup option

def has (invocation : Invocation) (option : ProgramOption) : Bool :=
  (invocation.value? option).isSome

end Invocation

/-- Why no command is carried out. -/
inductive ArgumentStop where
  | helpWanted
  | versionWanted
  | misused
deriving DecidableEq

/-! ### Reading -/

/-- What the arguments so far lead to. -/
inductive ArgumentPlace where
  | beforeCommand
  | inside (command : CommandName)
  /-- The request for help, and whether its topic is given. -/
  | help (hasTopic : Bool)
deriving DecidableEq

/-- The options that are given before the command, or after it. -/
structure GivenOptions where
  noted : List (ProgramOption × String)
  /-- The last option if its value is an argument of its own, which may be still to come. -/
  last : Option (ProgramOption × Option String)

namespace GivenOptions

def none : GivenOptions := ⟨[], Option.none⟩

/-- Notes an option, which must not be there twice. -/
def note (given : GivenOptions) (option : ProgramOption) (value : String) :
    Except ArgumentStop GivenOptions :=
  if (given.noted.lookup option).isSome then .error .misused
  else .ok ⟨(option, value) :: given.noted, Option.none⟩

/-- Notes the last option, which must have its value by now. -/
def settle (given : GivenOptions) : Except ArgumentStop GivenOptions :=
  match given.last with
  | Option.none => .ok given
  | some (option, some value) => given.note option value
  | some (_, Option.none) => .error .misused

/-- An option with the value that stands in the same argument, if there is one. -/
def add (given : GivenOptions) (option : ProgramOption) (attached : Option String) :
    Except ArgumentStop GivenOptions := do
  let given ← given.settle
  match option.takesValue, attached with
  | true, some value => given.note option value
  | true, Option.none => return { given with last := some (option, Option.none) }
  | false, Option.none => given.note option ""
  | false, some _ => .error .misused

end GivenOptions

/-- What the arguments so far say. -/
structure ArgumentReader where
  place : ArgumentPlace
  /-- The options before the command. -/
  outer : GivenOptions
  /-- The options after the command. -/
  inner : GivenOptions
  path : Option String
  optionsEnded : Bool

namespace ArgumentReader

def start : ArgumentReader := ⟨.beforeCommand, .none, .none, none, false⟩

/-- The options that may stand here. -/
def available (reader : ArgumentReader) : List ProgramOption :=
  match reader.place with
  | .inside command => ProgramOption.shared ++ command.options
  | _ => ProgramOption.shared

/-- The options that are given on this side of the command. -/
def given (reader : ArgumentReader) : GivenOptions :=
  match reader.place with
  | .inside _ => reader.inner
  | _ => reader.outer

def setGiven (reader : ArgumentReader) (given : GivenOptions) : ArgumentReader :=
  match reader.place with
  | .inside _ => { reader with inner := given }
  | _ => { reader with outer := given }

/-- An option with the value that stands in the same argument, if there is one. -/
def addOption (reader : ArgumentReader) (option : ProgramOption) (attached : Option String) :
    Except ArgumentStop ArgumentReader :=
  (reader.given.add option attached).map reader.setGiven

/-- A request that is granted unless an option before it is given wrongly. -/
def request (reader : ArgumentReader) (stop : ArgumentStop) :
    Except ArgumentStop ArgumentReader :=
  reader.given.settle.bind fun _ => .error stop

/-- An argument after two dashes. -/
def addLong (reader : ArgumentReader) (chars : List Char) : Except ArgumentStop ArgumentReader :=
  let name := String.ofList (chars.takeWhile (· ≠ '='))
  let attached := match chars.dropWhile (· ≠ '=') with
    | _ :: value => some (String.ofList value)
    | [] => none
  match reader.available.find? fun option => option.name == name with
  | some option => reader.addOption option attached
  | none =>
    if attached.isSome then .error .misused
    else if name = "help" then reader.request .helpWanted
    else if name = "version" ∧ reader.place = .beforeCommand then reader.request .versionWanted
    else .error .misused

/-- The value that follows the letter of an option in the same argument. -/
def attachedValue? : List Char → Option String
  | [] => none
  | '=' :: value => some (String.ofList value)
  | value => some (String.ofList value)

/-- An argument after one dash. -/
def addLetter (reader : ArgumentReader) (letter : Char) (rest : List Char) :
    Except ArgumentStop ArgumentReader :=
  match reader.available.find? fun option => option.letter? == some letter with
  | some option => reader.addOption option (attachedValue? rest)
  | none =>
    if letter = 'h' then reader.request .helpWanted
    else if letter = 'V' ∧ reader.place = .beforeCommand then reader.request .versionWanted
    else .error .misused

/-- An argument that is no option: the command, or the file that it reads. -/
def addPlain (reader : ArgumentReader) (argument : String) :
    Except ArgumentStop ArgumentReader :=
  match reader.place with
  | .inside command =>
    if command.readsInput ∧ reader.path = none then
      reader.given.settle.map fun given => { reader with inner := given, path := some argument }
    else .error .misused
  | _ =>
    if reader.optionsEnded then .error .misused
    else if argument = "help" then .ok { reader with place := .help false }
    else
      match CommandName.ofName? argument with
      | some command => .ok { reader with place := .inside command }
      | none => .error .misused

/-- The topic of a request for help. -/
def addTopic (reader : ArgumentReader) (hasTopic : Bool) (argument : String) :
    Except ArgumentStop ArgumentReader :=
  if !hasTopic && (argument = "help" || (CommandName.ofName? argument).isSome) then
    .ok { reader with place := .help true }
  else .error .misused

/-- Whether an argument can be the value of an option. -/
def canBeValue (argument : String) : Bool :=
  argument = "-" || argument.toList.head? ≠ some '-'

/-- An argument where neither a value nor a topic must come next. -/
def addFree (reader : ArgumentReader) (argument : String) :
    Except ArgumentStop ArgumentReader :=
  if reader.optionsEnded then reader.addPlain argument
  else
    match argument.toList with
    | ['-', '-'] => .ok { reader with optionsEnded := true }
    | '-' :: '-' :: name => reader.addLong name
    | '-' :: letter :: rest => reader.addLetter letter rest
    | _ => reader.addPlain argument

/-- The reader after an argument. -/
def add (reader : ArgumentReader) (argument : String) : Except ArgumentStop ArgumentReader :=
  match reader.place, reader.given.last with
  | .help hasTopic, _ => reader.addTopic hasTopic argument
  | _, some (option, none) =>
    if canBeValue argument then
      .ok (reader.setGiven { reader.given with last := some (option, some argument) })
    else .error .misused
  | _, _ => reader.addFree argument

/-- What all arguments say. The options before the command are settled last, so a request for help
after the command is granted in any case. -/
def finish (reader : ArgumentReader) : Except ArgumentStop Invocation := do
  match reader.place with
  | .help _ => .error .helpWanted
  | .beforeCommand => .error .misused
  | .inside command =>
    let inner ← reader.inner.settle
    let outer ← reader.outer.settle
    return ⟨command, inner.noted ++ outer.noted, reader.path⟩

end ArgumentReader

/-- Reads the arguments of the program. -/
def Invocation.ofArguments (arguments : List String) : Except ArgumentStop Invocation := do
  let reader ← arguments.foldlM ArgumentReader.add ArgumentReader.start
  reader.finish

end ShallowParse
