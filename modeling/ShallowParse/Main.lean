/-
This file is the program itself: it reads the files that the arguments name and,
where a command needs it, the standard input, and writes what the command writes.
-/

import ShallowParse.Command.Run

namespace ShallowParse

def decode (bytes : ByteArray) : Except ReadFault String :=
  match String.fromUTF8? bytes with
  | some text => .ok text
  | none => .error .notText

/-- The fault that an error of the system stands for. -/
def faultOf : IO.Error → ReadFault
  | .noFileOrDirectory .. => .missing
  | .permissionDenied .. => .denied
  | .inappropriateType _ code _ =>
    if code = 20 || code = 0 - 20 then .notDirectory else .isDirectory
  | _ => .nameTooLong

def readPath (path : String) : IO (Except ReadFault String) := do
  try
    return decode (← IO.FS.readBinFile path)
  catch error =>
    return .error (faultOf error)

/-- Whether a path leads to a file that is no device. -/
def isFile (path : String) : IO Bool := do
  try
    let place ← IO.FS.realPath path
    return (← place.metadata).type == .file
  catch _ =>
    return false

partial def readToEnd (stream : IO.FS.Stream) (read : ByteArray) : IO ByteArray := do
  let chunk ← stream.read 65536
  if chunk.isEmpty then return read else readToEnd stream (read ++ chunk)

/-- What an invocation may read. -/
def readSurroundings (invocation : Invocation) : IO Surroundings := do
  let settingsPaths := ((invocation.value? .config).toList).flatMap Invocation.settingsPaths
  let settingsFiles ← settingsPaths.filterM fun path => isFile path
  let texts ← (settingsFiles ++ invocation.inputPaths).mapM fun path =>
    return (path, ← readPath path)
  let standardInput ←
    if invocation.readsStandardInput then
      decode <$> readToEnd (← IO.getStdin) ByteArray.empty
    else pure (.ok "")
  return {
    readFile := fun path => (texts.lookup path).getD (.error .missing)
    isFile := settingsFiles.contains
    standardInput := standardInput }

def writeOutcome (outcome : Outcome) : IO UInt32 := do
  IO.print outcome.output
  IO.eprint outcome.errors
  return UInt32.ofNat outcome.code

end ShallowParse

open ShallowParse in
def main (arguments : List String) : IO UInt32 := do
  match Invocation.ofArguments arguments with
  | .ok invocation => writeOutcome (invocation.run (← readSurroundings invocation))
  | .error stop => writeOutcome stop.outcome
