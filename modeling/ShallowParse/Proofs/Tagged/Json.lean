/-
This file proves which JSON texts are read as a sentence. An item shows a word if it is a
pair of strings, or an object with strings as its text and its tag; nothing else does, be it
a pair with a third item or an object whose text is null. Words can be put into a JSON array
in either way, one by one.
-/

import ShallowParse.Proofs.Json.Reading
import ShallowParse.Proofs.Tagged.Items
import ShallowParse.Tagged.Json

namespace ShallowParse

/-- Which text a field holds: one if its value is a string. -/
theorem JsonValue.optionalText?_eq_some_iff {fields : List (String × JsonValue)}
    {name text : String} :
    optionalText? fields name = some (some text) ↔ lookup? fields name = some (.string text) := by
  rw [optionalText?]
  split <;> simp_all

namespace Token

/-! ### Single words -/

/-- Whether an item of an array shows a word. -/
inductive FromJson : JsonValue → Token → Prop where
  | pair (token : Token) : FromJson (.array [.string token.text, .string token.tag]) token
  /-- Other fields do not matter. -/
  | object {fields : List (String × JsonValue)} {token : Token}
    (text : JsonValue.lookup? fields "text" = some (.string token.text))
    (tag : JsonValue.lookup? fields "tag" = some (.string token.tag)) :
    FromJson (.object fields) token

theorem ofParts_eq_ok_iff {text tag : Option String} {token : Token} :
    ofParts text tag = .ok token ↔ text = some token.text ∧ tag = some token.tag := by
  cases text with
  | none => exact ⟨nofun, fun ⟨isText, _⟩ => nomatch isText⟩
  | some text =>
    cases tag with
    | none => exact ⟨nofun, fun ⟨_, isTag⟩ => nomatch isTag⟩
    | some tag =>
      constructor
      · rintro ⟨⟩
        exact ⟨rfl, rfl⟩
      · rintro ⟨⟨⟩, ⟨⟩⟩
        rfl

/-- An item is read as the word that it shows. -/
theorem ofJson_eq_ok_iff {item : JsonValue} {token : Token} :
    ofJson item = .ok token ↔ FromJson item token := by
  constructor
  · intro isRead
    rw [ofJson.eq_def] at isRead
    split at isRead
    · cases isRead
      exact FromJson.pair ⟨_, _⟩
    · split at isRead
      · rename_i ofText ofTag
        obtain ⟨rfl, rfl⟩ := ofParts_eq_ok_iff.mp isRead
        exact FromJson.object (JsonValue.optionalText?_eq_some_iff.mp ofText)
          (JsonValue.optionalText?_eq_some_iff.mp ofTag)
      · cases isRead
    · cases isRead
  · rintro (_ | ⟨ofText, ofTag⟩)
    · rfl
    · rw [ofJson, JsonValue.optionalText?_eq_some_iff.mpr ofText,
        JsonValue.optionalText?_eq_some_iff.mpr ofTag]
      rfl

/-! ### Arrays -/

theorem areRead_ofJsonText {text : String} {items : List JsonValue}
    (isArray : JsonValue.ofText? text = some (.array items)) :
    AreRead FromJson items (ofJsonText text) := by
  rw [ofJsonText, isArray]
  exact areRead_allOf (fun _ _ => ofJson_eq_ok_iff) items

theorem ofJsonText_of_noArray {text : String}
    (noArray : ∀ items, JsonValue.ofText? text ≠ some (.array items)) :
    ofJsonText text = .error ⟨0, .notAnArray⟩ := by
  rw [ofJsonText]
  split
  · rename_i items isArray
    exact absurd isArray (noArray items)
  · rfl

/-- Only arrays are read. -/
theorem exists_array_of_ofJsonText {text : String} {tokens : List Token}
    (isRead : ofJsonText text = .ok tokens) :
    ∃ items, JsonValue.ofText? text = some (.array items) := by
  by_contra noArray
  rw [ofJsonText_of_noArray fun items isArray => noArray ⟨items, isArray⟩] at isRead
  cases isRead

end Token

/-! ### Writing words -/

/-- The two ways of putting a word into an array. -/
inductive ItemForm where
  | pair
  | object

namespace Token

/-- A word as an item of an array. -/
def toItem (token : Token) : ItemForm → JsonValue
  | .pair => .array [.string token.text, .string token.tag]
  | .object => .object [("text", .string token.text), ("tag", .string token.tag)]

/-- Words as an array, each in a way of its own. -/
def toArray (choices : List (Token × ItemForm)) : JsonValue :=
  .array (choices.map fun choice => choice.1.toItem choice.2)

theorem fromJson_toItem (token : Token) (form : ItemForm) : FromJson (token.toItem form) token := by
  cases form with
  | pair => exact FromJson.pair token
  | object => exact FromJson.object rfl rfl

theorem isNumberless_toArray (choices : List (Token × ItemForm)) :
    (toArray choices).isNumberless = true := by
  rw [toArray, JsonValue.isNumberless]
  induction choices with
  | nil => rfl
  | cons choice choices inductionHypothesis =>
    obtain ⟨token, form⟩ := choice
    rw [List.map_cons, JsonValue.areNumberless, inductionHypothesis]
    cases form <;> rfl

/-- Neither way of putting a word into an array takes more than one level. -/
theorem nesting_toArray_le (choices : List (Token × ItemForm)) :
    (toArray choices).nesting ≤ 2 := by
  rw [toArray, JsonValue.nesting]
  refine Nat.succ_le_succ ?_
  induction choices with
  | nil => exact Nat.zero_le 1
  | cons choice choices inductionHypothesis =>
    obtain ⟨token, form⟩ := choice
    refine Nat.max_le.mpr ⟨?_, inductionHypothesis⟩
    cases form <;> exact Nat.le_refl 1

/-- Words are read back from a text that spells them out as an array. -/
theorem ofJsonText_of_lexemes {text : String} {choices : List (Token × ItemForm)}
    (areLexemes : JsonLexeme.ofChars? 0 text.toList = some (toArray choices).lexemes) :
    ofJsonText text = .ok (choices.map Prod.fst) := by
  have isArray : JsonValue.ofText? text = some (toArray choices) := by
    rw [JsonValue.ofText?_of_lexemes areLexemes,
      if_pos (Nat.lt_of_le_of_lt (nesting_toArray_le choices) (by decide))]
  rw [(areRead_ofJsonText isArray).shown, List.forall₂_map_left_iff, List.forall₂_map_right_iff,
    List.forall₂_same]
  exact fun choice _ => fromJson_toItem choice.1 choice.2

/-- A JSON array is read just if each of its items is a pair of strings or an object with strings
as its text and its tag. Then it is read as these words, and otherwise the first other item is
reported. A text that is no array is reported at place 0. Words are read back however they are put
into an array, one by one, and however this is written. -/
theorem ofJsonText_takes_pairs_and_objects (text : String) :
    (∀ items, JsonValue.ofText? text = some (.array items) →
      AreRead FromJson items (ofJsonText text)) ∧
    ((∀ items, JsonValue.ofText? text ≠ some (.array items)) →
      ∃ fault, ofJsonText text = .error ⟨0, fault⟩) ∧
    ∀ choices : List (Token × ItemForm),
      (JsonLexeme.ofChars? 0 text.toList = some (toArray choices).lexemes →
        ofJsonText text = .ok (choices.map Prod.fst)) ∧
      ofJsonText (toArray choices).pretty = .ok (choices.map Prod.fst) := by
  refine ⟨fun items => areRead_ofJsonText, fun noArray => ⟨_, ofJsonText_of_noArray noArray⟩, ?_⟩
  refine fun choices => ⟨ofJsonText_of_lexemes, ofJsonText_of_lexemes ?_⟩
  have spelled := JsonValue.spells_lines 0 (toArray choices) (isNumberless_toArray choices) []
  rw [JsonValue.pretty, String.toList_ofList]
  rwa [List.append_nil, JsonLexeme.ofChars?, Option.map_some, List.append_nil] at spelled

/-- A pair, an object with another field, and an object without a tag. -/
def mixedItems : List JsonValue :=
  [.array [.string "The", .string "DT"],
    .object [("tag", .string "NN"), ("sure", .bool true), ("text", .string "rose")],
    .object [("text", .string "."), ("tag", .null)]]

/-- The items as an array, with a character written as an escape. -/
def mixedText : String :=
  "[[\"The\", \"DT\"], \x7b\"tag\": \"NN\", \"sure\": true, \"text\": \"r\\u006fse\"\x7d, " ++
    "\x7b\"text\": \".\", \"tag\": null\x7d]"

theorem ofJsonText_takes_pairs_and_objects_mixed :
    (∃ fault, ofJsonText mixedText = .error ⟨2, fault⟩) ∧
    (∃ fault, ofJsonText "\x7b\"text\":\"rose\",\"tag\":\"NN\"\x7d" = .error ⟨0, fault⟩) ∧
    ofJsonText "[[\"rose\",\"NN\"],\x7b\"text\":\".\",\"tag\":\".\"\x7d]" =
      .ok [⟨"rose", "NN"⟩, ⟨".", "."⟩] := by
  have ofArray : JsonLexeme.ofChars? 0 mixedText.toList =
      some (JsonValue.array mixedItems).lexemes := by decide +kernel
  have isArray : JsonValue.ofText? mixedText = some (.array mixedItems) :=
    (JsonValue.ofText?_of_lexemes ofArray).trans (if_pos (by decide))
  have ofObject : JsonLexeme.ofChars? 0 "\x7b\"text\":\"rose\",\"tag\":\"NN\"\x7d".toList =
      some (toItem ⟨"rose", "NN"⟩ .object).lexemes := by decide +kernel
  have isObject := (JsonValue.ofText?_of_lexemes ofObject).trans (if_pos (by decide))
  refine ⟨?_, ?_, ?_⟩
  · refine ((ofJsonText_takes_pairs_and_objects _).1 mixedItems isArray).refused
      [_, _] _ [] rfl ?_ fun token isShown => ?_
    · exact List.forall_mem_cons.mpr ⟨⟨⟨"The", "DT"⟩, FromJson.pair ⟨"The", "DT"⟩⟩,
        List.forall_mem_singleton.mpr ⟨⟨"rose", "NN"⟩, FromJson.object rfl rfl⟩⟩
    · exact nomatch ofJson_eq_ok_iff.mpr isShown
  · refine (ofJsonText_takes_pairs_and_objects _).2.1 fun items isOther => ?_
    exact nomatch isObject.symm.trans isOther
  · exact ((ofJsonText_takes_pairs_and_objects _).2.2
      [(⟨"rose", "NN"⟩, .pair), (⟨".", "."⟩, .object)]).1 (by decide +kernel)

end Token

end ShallowParse
