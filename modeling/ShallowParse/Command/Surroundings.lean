/-
This file defines what a command can read: files by their paths, and the standard
input.

A path is a row of parts between slashes, and each part is looked up where the
parts before it have led. Parts that are empty or a dot stay in a directory, and
two dots lead to the directory above it. Nothing can be looked up in a file, so a
slash after the name of a file is a fault.
-/

namespace ShallowParse

/-! ### Faults -/

/-- Why a file or the standard input cannot be read. -/
inductive ReadFault where
  | missing
  | denied
  | notDirectory
  | isDirectory
  | nameTooLong
  | notText
deriving DecidableEq

def ReadFault.message : ReadFault → String
  | missing => "No such file or directory (os error 2)"
  | denied => "Permission denied (os error 13)"
  | notDirectory => "Not a directory (os error 20)"
  | isDirectory => "Is a directory (os error 21)"
  | nameTooLong => "File name too long (os error 36)"
  | notText => "stream did not contain valid UTF-8"

/-! ### Paths -/

namespace Path

/-- The parts of a path. -/
def parts (path : String) : List (List Char) :=
  path.toList.splitOn '/'

/-- Whether a part stays where it is. -/
def staysHere (part : List Char) : Bool :=
  part = [] || part = ['.']

/-- The part that leads to the directory above. -/
def above : List Char := ['.', '.']

/-- A path up to the name that it ends in, without any parts after it that stay there. A path that
ends in no name has none. -/
def upToName? (path : String) : Option String :=
  match (parts path).reverse.dropWhile staysHere with
  | [] => none
  | last :: before =>
    if last = above then none else some (String.ofList (['/'].intercalate (last :: before).reverse))

/-- The greatest number of bytes of a part. -/
def partLimit : Nat := 255

/-- The greatest number of bytes of a path. -/
def limit : Nat := 4095

end Path

/-! ### Surroundings -/

/-- What a command can read. -/
structure Surroundings where
  readFile : String → Except ReadFault String
  /-- Whether a path leads to a file that keeps what it holds, so not to a device. -/
  isFile : String → Bool
  standardInput : Except ReadFault String

/-! ### Directories -/

/-- What a path can lead to. -/
inductive Entry where
  | file (text : String)
  | device (content : Except ReadFault String)
  | directory (entries : List (String × Entry))

namespace Entry

/-- What reading an entry gives. -/
def content : Entry → Except ReadFault String
  | file text => .ok text
  | device content => content
  | directory _ => .error .isDirectory

def isFile : Entry → Bool
  | file _ => true
  | _ => false

/-- Where a part leads from a place. A place is an entry before the directories that it stands in,
the nearest first. Above the uppermost directory there is only itself. -/
def enter (part : List Char) : List Entry → Except ReadFault (List Entry)
  | directory entries :: higher =>
    let name := String.ofList part
    if Path.staysHere part then .ok (directory entries :: higher)
    else if part = Path.above then
      .ok (if higher.isEmpty then [directory entries] else higher)
    else if Path.partLimit < name.utf8ByteSize then .error .nameTooLong
    else
      match entries.lookup name with
      | some entry => .ok (entry :: directory entries :: higher)
      | none => .error .missing
  | _ => .error .notDirectory

/-- What a path leads to from a directory, or from the root if it begins with a slash. -/
def find (root : Entry) (place : List Entry) (path : String) : Except ReadFault Entry :=
  if path.isEmpty then .error .missing
  else if Path.limit < path.utf8ByteSize then .error .nameTooLong
  else do
    let start := if path.startsWith "/" then [root] else place
    match ← (Path.parts path).foldlM (fun place part => enter part place) start with
    | entry :: _ => .ok entry
    | [] => .error .missing

end Entry

namespace Surroundings

/-- The directory above all others with what is always there. -/
def root (standardInput : Except ReadFault String) : Entry :=
  .directory [
    ("dev", .directory [("null", .device (.ok "")), ("stdin", .device standardInput)]),
    ("tmp", .directory [])]

/-- What can be read in a directory that holds exactly the given files. -/
def inDirectory (files : List (String × String)) (standardInput : Except ReadFault String) :
    Surroundings :=
  let root := root standardInput
  let here := Entry.directory (files.map fun (name, text) => (name, .file text))
  let find (path : String) : Except ReadFault Entry := Entry.find root [here, root] path
  { readFile := fun path => (find path).bind Entry.content
    isFile := fun path => (find path).toOption.any Entry.isFile
    standardInput := standardInput }

end Surroundings

end ShallowParse
