/-
This file writes a sequence of symbols as one text, so that a pattern over
symbols can be matched as a regular expression over characters.

Each symbol stands between angle brackets. Inside a symbol `&` is written
`&amp;`, `<` is written `&lt;` and `>` is written `&gt;`, so every `<` of the text
begins a symbol and every `>` ends one. The text also keeps at which byte each
symbol begins, so the text of the symbols from any place on is found without
writing them again.
-/

import ShallowParse.Text.Bytes

namespace ShallowParse

namespace Symbol

/-- A character of a symbol as it stands between angle brackets. -/
def encodeChar : Char → List Char
  | '&' => "&amp;".toList
  | '<' => "&lt;".toList
  | '>' => "&gt;".toList
  | char => [char]

/-- A symbol as it stands between angle brackets. -/
def encode (symbol : String) : List Char :=
  symbol.toList.flatMap encodeChar

/-- A symbol with its angle brackets. -/
def bracketed (symbol : String) : List Char :=
  '<' :: encode symbol ++ ['>']

end Symbol

/-- The text of a sequence of symbols, with the offset of each symbol in it, in bytes. -/
structure SymbolText where
  chars : List Char
  offsets : List Nat

namespace SymbolText

/-- The offsets of symbols when the first of them begins at the given one. -/
def offsetsFrom (offset : Nat) : List String → List Nat
  | [] => []
  | symbol :: symbols =>
    offset :: offsetsFrom (offset + Text.byteLength (Symbol.bracketed symbol)) symbols

def ofSymbols (symbols : List String) : SymbolText :=
  ⟨symbols.flatMap Symbol.bracketed, offsetsFrom 0 symbols⟩

/-- The number of symbols. -/
def size (text : SymbolText) : Nat :=
  text.offsets.length

def isEmpty (text : SymbolText) : Bool :=
  text.offsets.isEmpty

/-- The text from a symbol on, which is empty where there is no such symbol. -/
def suffix (text : SymbolText) (index : Nat) : List Char :=
  match text.offsets[index]? with
  | some offset => Text.dropBytes offset text.chars
  | none => []

/-- The text itself. -/
def toText (text : SymbolText) : String :=
  String.ofList text.chars

end SymbolText

end ShallowParse
