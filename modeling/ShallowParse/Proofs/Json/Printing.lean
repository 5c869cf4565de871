/-
This file proves which lexemes printed JSON values spell. A string in quotes spells one,
since each of its characters is written in a way that is read as that character alone, and
a value over several lines spells a row of them. Numbers are left out, because a digit
after a number belongs to it.
-/

import ShallowParse.Json.Printer
import ShallowParse.Json.Reader
import ShallowParse.Proofs.Text.Spelling

namespace ShallowParse

/-! ### Digits -/

theorem Text.digit?_digitChar :
    ∀ digit < 16, Text.digit? 16 (Text.digitChar 'a' digit) = some digit := by
  decide

namespace JsonLexeme

/-- Four digits of base sixteen denote the number they are written for. -/
theorem unit?_hexDigits {number : Nat} (small : number < 0x10000) :
    ∃ first second third fourth, Text.hexDigits 'a' 4 number = [first, second, third, fourth] ∧
      unit? first second third fourth = some number := by
  refine ⟨_, _, _, _, rfl, ?_⟩
  have isDigit (number : Nat) :
      Text.digit? 16 (Text.digitChar 'a' (number % 16)) = some (number % 16) :=
    Text.digit?_digitChar _ (Nat.mod_lt _ (by decide))
  rw [unit?, isDigit, isDigit, isDigit, isDigit]
  refine congrArg some ?_
  omega

/-! ### Strings -/

/-- A character is read as it is written inside quotes. -/
theorem stringContent?_quotedChar (char : Char) (rest : List Char) :
    stringContent? (JsonValue.quotedChar char ++ rest) =
      addChar char (JsonValue.quotedChar char).length (stringContent? rest) := by
  rw [JsonValue.quotedChar.eq_def]
  split
  case h_8 notQuote notSlash _ _ _ _ _ =>
    split
    · rename_i isControl
      have small : char.toNat < 32 := isControl
      obtain ⟨first, second, third, fourth, areDigits, isUnit⟩ :=
        unit?_hexDigits (Nat.lt_trans small (by decide))
      have notHigh : isHighSurrogate char.toNat = false := by
        rw [isHighSurrogate, decide_eq_false (by omega), Bool.false_and]
      have notLow : isLowSurrogate char.toNat = false := by
        rw [isLowSurrogate, decide_eq_false (by omega), Bool.false_and]
      rw [areDigits]
      simp only [List.cons_append, List.nil_append, stringContent?.eq_2, isUnit, notHigh, notLow,
        Bool.false_eq_true, if_false, Char.ofNat_toNat, List.length_cons, List.length_nil]
    · rename_i notControl
      rw [List.singleton_append, stringContent?.eq_4 _ _ notQuote
        (fun _ _ _ _ _ isSlash => absurd isSlash notSlash)
        (fun _ _ isSlash => absurd isSlash notSlash), if_neg notControl]
      rfl
  all_goals rfl

theorem stringContent?_quotedChars (chars rest : List Char) :
    stringContent? (chars.flatMap JsonValue.quotedChar ++ '"' :: rest) =
      some (chars, (chars.flatMap JsonValue.quotedChar).length + 1) := by
  induction chars with
  | nil => rfl
  | cons char chars inductionHypothesis =>
    rw [List.flatMap_cons, List.append_assoc, stringContent?_quotedChar, inductionHypothesis,
      addChar, Option.map_some, List.length_append]
    refine congrArg (fun length => some (char :: chars, length)) ?_
    omega

/-! ### Spelling -/

theorem passesOver_ofChars? : Text.PassesOver ofChars? := fun _ _ _ => rfl

/-- Whether a text is cut into these lexemes, whatever comes after it. -/
abbrev Spells (text : List Char) (lexemes : List JsonLexeme) : Prop :=
  Text.Spells ofChars? text lexemes

namespace Spells

theorem of_step (first : Char) (more : List Char) (lexeme : Option JsonLexeme)
    (step : ∀ rest, step? first (more ++ rest) = some ⟨lexeme, more.length⟩) :
    Spells (first :: more) lexeme.toList := by
  refine .cons passesOver_ofChars? fun rest => ?_
  rw [ofChars?, step, Option.bind_some]

/-- A punctuation mark before a text adds its lexeme. -/
theorem mark (first : Char) (lexeme : JsonLexeme)
    (step : ∀ rest, step? first rest = some ⟨some lexeme, 0⟩) {text : List Char}
    {lexemes : List JsonLexeme} (ofText : Spells text lexemes) :
    Spells (first :: text) (lexeme :: lexemes) :=
  (of_step first [] (some lexeme) step).append ofText

/-- A blank before a text adds nothing. -/
theorem blank (first : Char) (step : ∀ rest, step? first rest = some ⟨none, 0⟩)
    {text : List Char} {lexemes : List JsonLexeme} (ofText : Spells text lexemes) :
    Spells (first :: text) lexemes :=
  (of_step first [] none step).append ofText

/-- A string in quotes spells one lexeme. -/
theorem quoted (text : String) : Spells (JsonValue.quoted text) [.string text] := by
  show Spells ('"' :: (text.toList.flatMap JsonValue.quotedChar ++ ['"'])) _
  refine of_step '"' _ (some (string text)) fun rest => ?_
  rw [List.append_assoc, List.singleton_append]
  show Option.map _ (stringContent? _) = _
  simp only [stringContent?_quotedChars, Option.map_some, String.ofList_toList,
    List.length_append, List.length_singleton]

/-- The beginning of a line spells nothing. -/
theorem lineAt (level : Nat) : Spells (JsonValue.lineAt level) [] := by
  refine blank '\n' (fun _ => rfl) ?_
  induction 2 * level with
  | zero => exact .nil
  | succ count inductionHypothesis => exact blank ' ' (fun _ => rfl) inductionHypothesis

theorem append_lineAt (level : Nat) {text : List Char} {lexemes : List JsonLexeme}
    (ofText : Spells text lexemes) : Spells (text ++ JsonValue.lineAt level) lexemes := by
  have withLine := ofText.append (lineAt level)
  rwa [List.append_nil] at withLine

/-- A text between two punctuation marks adds the lexemes of both. -/
theorem between (opening closing : Char) {first last : JsonLexeme}
    (opens : ∀ rest, step? opening rest = some ⟨some first, 0⟩)
    (closes : ∀ rest, step? closing rest = some ⟨some last, 0⟩) {text : List Char}
    {lexemes : List JsonLexeme} (ofText : Spells text lexemes) :
    Spells (opening :: text ++ [closing]) (first :: lexemes ++ [last]) :=
  (mark opening first opens ofText).append (mark closing last closes .nil)

end Spells

end JsonLexeme

/-! ### Values -/

namespace JsonValue

open JsonLexeme (Spells)

mutual

/-- The lexemes of a value. -/
def lexemes : JsonValue → List JsonLexeme
  | null => [.null]
  | bool value => [.bool value]
  | number literal => [.number literal]
  | string value => [.string value]
  | array items => .openBracket :: itemLexemes items ++ [.closeBracket]
  | object fields => .openBrace :: fieldLexemes fields ++ [.closeBrace]

def itemLexemes : List JsonValue → List JsonLexeme
  | [] => []
  | [item] => lexemes item
  | item :: items => lexemes item ++ .comma :: itemLexemes items

def fieldLexemes : List (String × JsonValue) → List JsonLexeme
  | [] => []
  | [(name, value)] => .string name :: .colon :: lexemes value
  | (name, value) :: fields =>
    .string name :: .colon :: lexemes value ++ .comma :: fieldLexemes fields

end

mutual

/-- Whether no number stands anywhere in a value. -/
def isNumberless : JsonValue → Bool
  | number _ => false
  | array items => areNumberless items
  | object fields => areFieldsNumberless fields
  | _ => true

def areNumberless : List JsonValue → Bool
  | [] => true
  | item :: items => isNumberless item && areNumberless items

def areFieldsNumberless : List (String × JsonValue) → Bool
  | [] => true
  | (_, value) :: fields => isNumberless value && areFieldsNumberless fields

end

theorem spells_field {level : Nat} {name : String} {value : JsonValue}
    (ofValue : Spells (value.lines level) value.lexemes) :
    Spells (lineAt level ++ quoted name ++ ':' :: ' ' :: value.lines level)
      (.string name :: .colon :: value.lexemes) := by
  have ofName := (Spells.lineAt level).append (Spells.quoted name)
  have ofRest := Spells.mark ':' .colon (fun _ => rfl) (Spells.blank ' ' (fun _ => rfl) ofValue)
  exact ofName.append ofRest

mutual

/-- A value over several lines spells its lexemes. -/
theorem spells_lines (level : Nat) (value : JsonValue) (numberless : value.isNumberless = true) :
    Spells (value.lines level) value.lexemes := by
  match value with
  | null => exact Spells.of_step 'n' _ (some .null) fun _ => rfl
  | bool true => exact Spells.of_step 't' _ (some (.bool true)) fun _ => rfl
  | bool false => exact Spells.of_step 'f' _ (some (.bool false)) fun _ => rfl
  | string text => exact Spells.quoted text
  | array [] => exact Spells.between '[' ']' (fun _ => rfl) (fun _ => rfl) .nil
  | array (item :: items) =>
    have ofItems := spells_itemLines (level + 1) (item :: items) numberless
    exact Spells.between '[' ']' (fun _ => rfl) (fun _ => rfl) (ofItems.append_lineAt level)
  | object [] => exact Spells.between '{' '}' (fun _ => rfl) (fun _ => rfl) .nil
  | object (field :: fields) =>
    have ofFields := spells_fieldLines (level + 1) (field :: fields) numberless
    exact Spells.between '{' '}' (fun _ => rfl) (fun _ => rfl) (ofFields.append_lineAt level)

theorem spells_itemLines (level : Nat) (items : List JsonValue)
    (numberless : areNumberless items = true) :
    Spells (itemLines level items) (itemLexemes items) := by
  match items with
  | [] => exact .nil
  | [item] =>
    exact (Spells.lineAt level).append
      (spells_lines level item (Bool.and_eq_true_iff.mp numberless).1)
  | item :: next :: items =>
    obtain ⟨ofItem, ofItems⟩ := Bool.and_eq_true_iff.mp numberless
    have after : Spells (',' :: itemLines level (next :: items))
        (.comma :: itemLexemes (next :: items)) :=
      Spells.mark ',' .comma (fun _ => rfl)
        (spells_itemLines level (next :: items) ofItems)
    exact ((Spells.lineAt level).append (spells_lines level item ofItem)).append after

theorem spells_fieldLines (level : Nat) (fields : List (String × JsonValue))
    (numberless : areFieldsNumberless fields = true) :
    Spells (fieldLines level fields) (fieldLexemes fields) := by
  match fields with
  | [] => exact .nil
  | [(name, value)] =>
    exact spells_field (spells_lines level value (Bool.and_eq_true_iff.mp numberless).1)
  | (name, value) :: next :: fields =>
    obtain ⟨ofValue, ofFields⟩ := Bool.and_eq_true_iff.mp numberless
    have after : Spells (',' :: fieldLines level (next :: fields))
        (.comma :: fieldLexemes (next :: fields)) :=
      Spells.mark ',' .comma (fun _ => rfl)
        (spells_fieldLines level (next :: fields) ofFields)
    exact (spells_field (spells_lines level value ofValue)).append after

end

end JsonValue

end ShallowParse
