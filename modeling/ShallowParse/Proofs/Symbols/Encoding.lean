/-
This file proves what the text of symbols keeps of them. No encoded character begins
another, so a symbol begins with another one just if their encodings do. No encoded
symbol holds an angle bracket, so every `<` of the text begins a symbol, the text from
a symbol on is the text of the symbols from there on, and it tells what they are.
-/

import ShallowParse.Proofs.Text.Bytes
import ShallowParse.Proofs.Text.Stretches
import ShallowParse.Symbols

namespace ShallowParse

/-! ### One symbol -/

namespace Symbol

/-- No angle bracket stands in an encoded character. -/
theorem not_mem_encodeChar {bracket : Char} (isBracket : bracket ∈ ['<', '>']) (char : Char) :
    bracket ∉ encodeChar char := by
  rw [List.mem_cons, List.mem_singleton] at isBracket
  unfold encodeChar
  rcases isBracket with rfl | rfl <;> split <;> simp_all [eq_comm]

theorem not_mem_encode {bracket : Char} (isBracket : bracket ∈ ['<', '>']) (symbol : String) :
    bracket ∉ encode symbol := by
  simp only [encode, List.mem_flatMap, not_exists, not_and]
  exact fun char _ => not_mem_encodeChar isBracket char

theorem bracketed_eq (symbol : String) : bracketed symbol = '<' :: (encode symbol ++ ['>']) :=
  rfl

/-- A symbol with its brackets holds one opening bracket. -/
theorem count_bracketed (symbol : String) : (bracketed symbol).count '<' = 1 := by
  have none : (encode symbol).count '<' = 0 :=
    List.count_eq_zero.mpr (not_mem_encode (by decide) symbol)
  rw [bracketed_eq, List.count_cons_self, List.count_append, none]
  rfl

/-! ### Beginnings of symbols -/

/-- The character whose encoding a text begins with. -/
def firstDecoded : List Char → Option Char
  | '&' :: 'a' :: _ => some '&'
  | '&' :: 'l' :: _ => some '<'
  | '&' :: 'g' :: _ => some '>'
  | char :: _ => some char
  | [] => none

theorem firstDecoded_encodeChar (char : Char) (rest : List Char) :
    firstDecoded (encodeChar char ++ rest) = some char := by
  unfold encodeChar
  split
  · rfl
  · rfl
  · rfl
  · rename_i noAmpersand _ _
    show firstDecoded (char :: rest) = some char
    unfold firstDecoded
    split <;> simp_all

/-- No encoded character begins another. -/
theorem encodeChar_append_isPrefix {first second : Char} {rest other : List Char} :
    encodeChar first ++ rest <+: encodeChar second ++ other ↔ first = second ∧ rest <+: other := by
  constructor
  · rintro ⟨after, parted⟩
    have same := congrArg firstDecoded parted
    rw [List.append_assoc, firstDecoded_encodeChar, firstDecoded_encodeChar] at same
    obtain rfl := Option.some.inj same
    rw [List.append_assoc] at parted
    exact ⟨rfl, after, List.append_cancel_left parted⟩
  · rintro ⟨rfl, isPrefix⟩
    exact (List.prefix_append_right_inj _).mpr isPrefix

theorem encodeChar_ne_nil (char : Char) : encodeChar char ≠ [] := by
  unfold encodeChar
  split <;> simp

/-- An encoded text does not go on where the symbol ends. -/
theorem not_encodeChar_isPrefix_close (char : Char) (rest other : List Char) :
    ¬encodeChar char ++ rest <+: '>' :: other := by
  rintro ⟨after, parted⟩
  obtain ⟨first, others, isEncoded⟩ := List.exists_cons_of_ne_nil (encodeChar_ne_nil char)
  have member : first ∈ encodeChar char := isEncoded ▸ List.mem_cons_self
  rw [isEncoded] at parted
  exact not_mem_encodeChar (by decide) char ((List.cons.inj parted).1 ▸ member)

/-- A symbol begins with a stem if its encoding begins with that of the stem. -/
theorem encoded_isPrefix_iff (stem symbol rest : List Char) :
    stem.flatMap encodeChar <+: symbol.flatMap encodeChar ++ '>' :: rest ↔ stem <+: symbol := by
  induction stem generalizing symbol with
  | nil => simp
  | cons first stem inductionHypothesis =>
    cases symbol with
    | nil =>
      rw [List.flatMap_cons, List.flatMap_nil, List.nil_append, List.prefix_nil]
      exact iff_of_false (not_encodeChar_isPrefix_close _ _ _) (List.cons_ne_nil _ _)
    | cons second symbol =>
      rw [List.flatMap_cons, List.flatMap_cons, List.append_assoc, encodeChar_append_isPrefix,
        inductionHypothesis, List.cons_prefix_cons]

/-- Bracketed symbols begin the same text only if they are the same. -/
theorem encoded_close_isPrefix_iff (tag symbol rest : List Char) :
    tag.flatMap encodeChar ++ ['>'] <+: symbol.flatMap encodeChar ++ '>' :: rest ↔
      tag = symbol := by
  induction tag generalizing symbol with
  | nil =>
    cases symbol with
    | nil => simp
    | cons second symbol =>
      refine iff_of_false ?_ (List.cons_ne_nil _ _).symm
      rw [List.flatMap_nil, List.nil_append, List.flatMap_cons, List.append_assoc]
      obtain ⟨first, others, isEncoded⟩ := List.exists_cons_of_ne_nil (encodeChar_ne_nil second)
      have member : first ∈ encodeChar second := isEncoded ▸ List.mem_cons_self
      rw [isEncoded, List.cons_append, List.cons_prefix_cons]
      exact fun isPrefix => not_mem_encodeChar (by decide) second (isPrefix.1 ▸ member)
  | cons first tag inductionHypothesis =>
    cases symbol with
    | nil =>
      refine iff_of_false ?_ (List.cons_ne_nil _ _)
      rw [List.flatMap_cons, List.append_assoc]
      exact not_encodeChar_isPrefix_close _ _ _
    | cons second symbol =>
      rw [List.flatMap_cons, List.flatMap_cons, List.append_assoc, List.append_assoc,
        encodeChar_append_isPrefix, inductionHypothesis, List.cons.injEq]

/-- A symbol begins with another one just if their encodings do. -/
theorem encode_isPrefix_iff {stem symbol : String} :
    encode stem <+: encode symbol ↔ stem.toList <+: symbol.toList := by
  constructor
  · intro isPrefix
    rw [← encoded_isPrefix_iff stem.toList symbol.toList []]
    exact isPrefix.trans (List.prefix_append _ _)
  · rintro ⟨rest, parted⟩
    refine ⟨rest.flatMap encodeChar, ?_⟩
    rw [encode, encode, ← List.flatMap_append, parted]

theorem encode_injective : Function.Injective encode := by
  intro first second same
  have isPrefix : first.toList <+: second.toList :=
    encode_isPrefix_iff.mp (same ▸ List.prefix_refl _)
  have isPrefixToo : second.toList <+: first.toList :=
    encode_isPrefix_iff.mp (same ▸ List.prefix_refl _)
  have sameLength := Nat.le_antisymm isPrefix.length_le isPrefixToo.length_le
  exact String.toList_inj.mp (isPrefix.eq_of_length sameLength)

end Symbol

/-! ### Texts of symbols -/

namespace SymbolText

/-- The text that a sequence of symbols is written as. -/
def written (symbols : List String) : List Char :=
  symbols.flatMap Symbol.bracketed

@[simp]
theorem written_nil : written [] = [] := rfl

theorem written_cons (symbol : String) (symbols : List String) :
    written (symbol :: symbols) = Symbol.bracketed symbol ++ written symbols := by
  rw [written, List.flatMap_cons, ← written]

theorem written_append (before after : List String) :
    written (before ++ after) = written before ++ written after :=
  List.flatMap_append

/-- The text has one opening bracket for each symbol. -/
theorem count_written (symbols : List String) : (written symbols).count '<' = symbols.length := by
  induction symbols with
  | nil => rfl
  | cons symbol rest inductionHypothesis =>
    rw [written_cons, List.count_append, Symbol.count_bracketed, inductionHypothesis,
      List.length_cons, Nat.add_comm]

theorem eq_nil_of_written_eq_nil {symbols : List String} (isNil : written symbols = []) :
    symbols = [] := by
  have noSymbol := count_written symbols
  rw [isNil, List.count_nil] at noSymbol
  exact List.eq_nil_of_length_eq_zero noSymbol.symm

/-- The offset of a symbol is the number of bytes of the text of the symbols before it. -/
theorem getElem?_offsetsFrom (symbols : List String) (offset index : Nat) :
    (offsetsFrom offset symbols)[index]? =
      if index < symbols.length then
        some (offset + Text.byteLength (written (symbols.take index)))
      else none := by
  induction symbols generalizing offset index with
  | nil => simp [offsetsFrom]
  | cons symbol rest inductionHypothesis =>
    cases index with
    | zero => simp [offsetsFrom, Text.byteLength]
    | succ index =>
      rw [offsetsFrom, List.getElem?_cons_succ, inductionHypothesis, List.take_succ_cons,
        written_cons, Text.byteLength_append, Nat.add_assoc]
      simp only [List.length_cons, Nat.add_lt_add_iff_right]

/-- The text from a symbol on is the text of the symbols from there on, at every place. -/
theorem suffix_ofSymbols (symbols : List String) (index : Nat) :
    (ofSymbols symbols).suffix index = written (symbols.drop index) := by
  rw [suffix, show (ofSymbols symbols).offsets = offsetsFrom 0 symbols from rfl,
    getElem?_offsetsFrom]
  by_cases inside : index < symbols.length
  · simp only [if_pos inside, Nat.zero_add]
    have parted : (ofSymbols symbols).chars =
        written (symbols.take index) ++ written (symbols.drop index) := by
      rw [← written_append, List.take_append_drop]
      rfl
    rw [parted, Text.dropBytes_byteLength_append]
  · simp only [if_neg inside]
    rw [List.drop_eq_nil_of_le (Nat.le_of_not_lt inside), written_nil]

/-- Symbols are written one after the other so that they can be told apart. -/
theorem written_injective : Function.Injective written := by
  intro symbols others same
  induction symbols generalizing others with
  | nil => exact (eq_nil_of_written_eq_nil same.symm).symm
  | cons symbol symbols inductionHypothesis =>
    cases others with
    | nil => exact eq_nil_of_written_eq_nil same
    | cons other others =>
      rw [written_cons, written_cons, Symbol.bracketed_eq, Symbol.bracketed_eq, List.cons_append,
        List.cons_append, List.append_assoc, List.append_assoc, List.cons.injEq] at same
      have noClose (symbol : String) : ∀ stop ∈ ['>'], stop ∉ Symbol.encode symbol :=
        List.forall_mem_singleton.mpr (Symbol.not_mem_encode (by decide) symbol)
      -- The first `>` ends the first symbol, since no encoded symbol has one.
      obtain ⟨sameSymbol, sameAfter⟩ :=
        Text.eq_of_stops (noClose symbol) (noClose other) (by simp) (by simp) same.2
      rw [Symbol.encode_injective sameSymbol,
        inductionHypothesis (List.append_cancel_left sameAfter)]

/-- The encoding of symbols is faithful. One symbol begins with another just if their encodings do, so
no two are encoded alike, and there is no bracket in an encoded symbol. The text of symbols from any
place on, also after the last, is the text of the symbols from there on. It has one opening bracket
for each symbol, and the symbols can be told from it. -/
theorem text_tells_symbols :
    (∀ stem symbol : String,
      Symbol.encode stem <+: Symbol.encode symbol ↔ stem.toList <+: symbol.toList) ∧
    Function.Injective Symbol.encode ∧
    (∀ symbol, '<' ∉ Symbol.encode symbol ∧ '>' ∉ Symbol.encode symbol) ∧
    (∀ symbols index, String.ofList ((ofSymbols symbols).suffix index) =
      (ofSymbols (symbols.drop index)).toText) ∧
    (∀ symbols, (ofSymbols symbols).toText.toList.count '<' = symbols.length) ∧
    ∀ symbols others, (ofSymbols symbols).toText = (ofSymbols others).toText →
      symbols = others := by
  have isWritten (symbols : List String) :
      (ofSymbols symbols).toText = String.ofList (written symbols) := rfl
  refine ⟨fun stem symbol => Symbol.encode_isPrefix_iff, Symbol.encode_injective,
    fun symbol =>
      ⟨Symbol.not_mem_encode (by decide) symbol, Symbol.not_mem_encode (by decide) symbol⟩,
    fun symbols index => ?_, fun symbols => ?_, fun symbols others same => ?_⟩
  · rw [suffix_ofSymbols, isWritten]
  · rw [isWritten, String.toList_ofList, count_written]
  · exact written_injective (String.ofList_injective same)

end SymbolText

end ShallowParse
