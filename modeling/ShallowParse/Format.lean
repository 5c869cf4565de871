/-
This file defines output formats: named ways to write a tree. Formats are kept in
a registry, where a name stands for at most one of them.
-/

import ShallowParse.Json.Printer
import ShallowParse.Text.Sorted
import ShallowParse.Tree.Json
import ShallowParse.Tree.Outline
import ShallowParse.Tree.Yaml

namespace ShallowParse

/-! ### Formats -/

inductive FormatError where
  | notFound (name : String)
  | unwritable (reason : String)
deriving DecidableEq

def FormatError.message : FormatError → String
  | notFound name => "Format '" ++ name ++ "' not found"
  | unwritable reason => "Serialization error: " ++ reason

structure Format where
  name : String
  description : String
  write : Tree → Except FormatError String

namespace Format

def bracket : Format :=
  ⟨"bracket", "Single-line bracketed tree, e.g. (S (NP the/DT rose/NN))",
    fun tree => .ok (tree.written ++ "\n")⟩

def outline : Format :=
  ⟨"treeviz", "One node per line with tree connectors", fun tree => .ok tree.outline⟩

def json : Format :=
  ⟨"json", "Pretty-printed JSON", fun tree => .ok (tree.toJson.pretty ++ "\n")⟩

def yaml : Format :=
  ⟨"yaml", "YAML document", fun tree => .ok tree.toYaml⟩

end Format

/-! ### Registries -/

/-- Formats with different names. -/
structure FormatRegistry where
  formats : List Format

namespace FormatRegistry

def empty : FormatRegistry := ⟨[]⟩

def get? (registry : FormatRegistry) (name : String) : Option Format :=
  registry.formats.find? fun format => format.name == name

def contains (registry : FormatRegistry) (name : String) : Bool :=
  (registry.get? name).isSome

/-- Adds a format in place of any other with its name. -/
def insert (registry : FormatRegistry) (format : Format) : FormatRegistry :=
  ⟨format :: registry.formats.filter fun other => other.name != format.name⟩

/-- The names of the formats in increasing order. -/
def names (registry : FormatRegistry) : List String :=
  Text.sorted (registry.formats.map Format.name)

/-- Writes a tree in the format with a name. -/
def write (registry : FormatRegistry) (name : String) (tree : Tree) : Except FormatError String :=
  match registry.get? name with
  | some format => format.write tree
  | none => .error (.notFound name)

/-- The registry of all formats of this library. -/
def standard : FormatRegistry :=
  [Format.bracket, Format.outline, Format.json, Format.yaml].foldl insert empty

end FormatRegistry

end ShallowParse
