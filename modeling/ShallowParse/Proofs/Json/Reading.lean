/-
This file proves that a JSON value is read back from its lexemes, and from the lines it is
printed on, unless it is nested too deep. While a value is read, arrays and objects may
already be open, and there must be room for those within the value on top of them. The
induction is on the value. The items of an array and the fields of an object are read one
after the other, with those before them still in reverse.
-/

import ShallowParse.Proofs.Json.Printing

namespace ShallowParse

namespace JsonValue

mutual

/-- How deep arrays and objects are nested in a value. -/
def nesting : JsonValue → Nat
  | array items => nestingOfItems items + 1
  | object fields => nestingOfFields fields + 1
  | _ => 0

def nestingOfItems : List JsonValue → Nat
  | [] => 0
  | item :: items => max (nesting item) (nestingOfItems items)

def nestingOfFields : List (String × JsonValue) → Nat
  | [] => 0
  | (_, value) :: fields => max (nesting value) (nestingOfFields fields)

end

end JsonValue

namespace JsonReader

open JsonValue

/-! ### Steps -/

/-- There is room for two things one after the other if there is room for the larger one. -/
theorem ite_room_ite_room {first second : Nat} (value : Option JsonValue) :
    (if first < depthLimit then if second < depthLimit then value else none else none) =
      if max first second < depthLimit then value else none := by
  by_cases isFirst : first < depthLimit <;> simp only [Nat.max_lt, isFirst, if_true, if_false,
    true_and, false_and]

theorem read?_opened (waiting : List OpenJson) (reader : JsonReader) (rest : List JsonLexeme) :
    ((opened? waiting reader).bind fun reader => reader.read? rest) =
      if waiting.length + 1 < depthLimit then reader.read? rest else none := by
  rw [opened?]
  split <;> rfl

/-- In an array that is just open the first item is read as any other. -/
theorem read?_firstItem {items : List JsonValue} (notEmpty : items ≠ []) (others : List OpenJson)
    (rest : List JsonLexeme) :
    read? ⟨.array [] :: others, .valueOrClose⟩ (itemLexemes items ++ rest) =
      read? ⟨.array [] :: others, .value⟩ (itemLexemes items ++ rest) := by
  match items with
  | [] => exact absurd rfl notEmpty
  | [item] => cases item <;> rfl
  | item :: _ :: _ => cases item <;> rfl

/-- In an object that is just open the first field is read as any other. -/
theorem read?_firstField {fields : List (String × JsonValue)} (notEmpty : fields ≠ [])
    (waiting : List OpenJson) (rest : List JsonLexeme) :
    read? ⟨waiting, .nameOrClose []⟩ (fieldLexemes fields ++ rest) =
      read? ⟨waiting, .name []⟩ (fieldLexemes fields ++ rest) := by
  match fields with
  | [] => exact absurd rfl notEmpty
  | [_] => rfl
  | _ :: _ :: _ => rfl

/-! ### Values -/

mutual

/-- A value is read back from its lexemes if there is room for it. -/
theorem read?_lexemes (value : JsonValue) (waiting : List OpenJson) (rest : List JsonLexeme)
    (hasRoom : waiting.length < depthLimit) :
    read? ⟨waiting, .value⟩ (value.lexemes ++ rest) =
      if waiting.length + value.nesting < depthLimit then (complete value waiting).read? rest
      else none := by
  match value with
  | .null => exact (if_pos hasRoom).symm
  | .bool _ => exact (if_pos hasRoom).symm
  | .number _ => exact (if_pos hasRoom).symm
  | .string _ => exact (if_pos hasRoom).symm
  | .array [] => exact read?_opened waiting _ _
  | .array (item :: items) =>
    have notEmpty : item :: items ≠ [] := List.cons_ne_nil item items
    rw [lexemes, List.cons_append, List.cons_append, List.append_assoc]
    refine (read?_opened waiting _ _).trans ?_
    split
    · rename_i isOpen
      rw [read?_firstItem notEmpty]
      exact read?_itemLexemes (item :: items) [] waiting rest notEmpty isOpen
    · rename_i notOpen
      rw [nesting, if_neg (by omega)]
  | .object [] => exact read?_opened waiting _ _
  | .object (field :: fields) =>
    have notEmpty : field :: fields ≠ [] := List.cons_ne_nil field fields
    rw [lexemes, List.cons_append, List.cons_append, List.append_assoc]
    refine (read?_opened waiting _ _).trans ?_
    split
    · rename_i isOpen
      rw [read?_firstField notEmpty]
      exact read?_fieldLexemes (field :: fields) [] waiting rest notEmpty isOpen
    · rename_i notOpen
      rw [nesting, if_neg (by omega)]

theorem read?_itemLexemes (items earlier : List JsonValue) (others : List OpenJson)
    (rest : List JsonLexeme) (notEmpty : items ≠ []) (hasRoom : others.length + 1 < depthLimit) :
    read? ⟨.array earlier :: others, .value⟩ (itemLexemes items ++ .closeBracket :: rest) =
      if others.length + (nestingOfItems items + 1) < depthLimit then
        (complete (.array (earlier.reverse ++ items)) others).read? rest
      else none := by
  match items with
  | [] => exact absurd rfl notEmpty
  | [item] =>
    rw [itemLexemes, read?_lexemes item (.array earlier :: others) _ hasRoom, nestingOfItems,
      nestingOfItems, Nat.max_zero, List.length_cons, Nat.add_right_comm, ← List.reverse_cons]
    rfl
  | item :: next :: items =>
    have ofRest := read?_itemLexemes (next :: items) (item :: earlier) others rest
      (List.cons_ne_nil next items) hasRoom
    show read? _ ((item.lexemes ++ .comma :: itemLexemes (next :: items)) ++ _) = _
    rw [List.append_assoc, read?_lexemes item (.array earlier :: others) _ hasRoom]
    show (if _ then read? _ (itemLexemes (next :: items) ++ _) else none) = _
    rw [ofRest, ite_room_ite_room, List.reverse_cons, List.append_assoc, List.length_cons,
      Nat.add_right_comm, ← Nat.add_assoc, Nat.add_max_add_right, Nat.add_max_add_left]
    rfl

theorem read?_fieldLexemes (fields earlier : List (String × JsonValue)) (others : List OpenJson)
    (rest : List JsonLexeme) (notEmpty : fields ≠ []) (hasRoom : others.length + 1 < depthLimit) :
    read? ⟨others, .name earlier⟩ (fieldLexemes fields ++ .closeBrace :: rest) =
      if others.length + (nestingOfFields fields + 1) < depthLimit then
        (complete (.object (earlier.reverse ++ fields)) others).read? rest
      else none := by
  match fields with
  | [] => exact absurd rfl notEmpty
  | [(name, value)] =>
    show read? ⟨.object earlier name :: others, .value⟩ (value.lexemes ++ _) = _
    rw [read?_lexemes value (.object earlier name :: others) _ hasRoom, nestingOfFields,
      nestingOfFields, Nat.max_zero, List.length_cons, Nat.add_right_comm, ← List.reverse_cons]
    rfl
  | (name, value) :: next :: fields =>
    have ofRest := read?_fieldLexemes (next :: fields) ((name, value) :: earlier) others rest
      (List.cons_ne_nil next fields) hasRoom
    show read? ⟨.object earlier name :: others, .value⟩
      ((value.lexemes ++ .comma :: fieldLexemes (next :: fields)) ++ _) = _
    rw [List.append_assoc, read?_lexemes value (.object earlier name :: others) _ hasRoom]
    show (if _ then read? _ (fieldLexemes (next :: fields) ++ _) else none) = _
    rw [ofRest, ite_room_ite_room, List.reverse_cons, List.append_assoc, List.length_cons,
      Nat.add_right_comm, ← Nat.add_assoc, Nat.add_max_add_right, Nat.add_max_add_left]
    rfl

end

end JsonReader

/-! ### Texts -/

/-- A text is read as the value whose lexemes it has, if this is not nested too deep. -/
theorem JsonValue.ofText?_of_lexemes {text : String} {value : JsonValue}
    (areLexemes : JsonLexeme.ofChars? 0 text.toList = some value.lexemes) :
    ofText? text = if value.nesting < JsonReader.depthLimit then some value else none := by
  have isRead := JsonReader.read?_lexemes value [] [] (by decide)
  rw [List.append_nil, List.length_nil, Nat.zero_add] at isRead
  rw [ofText?, areLexemes]
  exact isRead

/-- A value is read back from the lines it is printed on, if it is not nested too deep. -/
theorem JsonValue.ofText?_pretty {value : JsonValue} (numberless : value.isNumberless = true) :
    ofText? (value.pretty ++ "\n") =
      if value.nesting < JsonReader.depthLimit then some value else none := by
  have isLast : JsonLexeme.ofChars? 0 ['\n'] = some [] := by decide
  refine ofText?_of_lexemes ?_
  rw [String.toList_append, pretty, String.toList_ofList, spells_lines 0 value numberless]
  show Option.map _ (JsonLexeme.ofChars? 0 ['\n']) = _
  rw [isLast, Option.map_some, List.append_nil]

end ShallowParse
