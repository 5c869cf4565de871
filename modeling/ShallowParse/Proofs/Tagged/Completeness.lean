/-
This file proves how far the readers of sentences leave nothing for the chunker to refuse.
Whatever lacks its text or its tag is reported by the reader, at its own place. A run of a
line lacks a part that is empty as well, so every sentence that is read from a line can be
chunked. In a JSON array an empty string is a part like any other. It passes the reader,
and then the chunker refuses the sentence.
-/

import ShallowParse.Proofs.Tagged.Json
import ShallowParse.Proofs.Tagged.Slashed

namespace ShallowParse

/-! ### Items of an array -/

namespace JsonValue

/-- Whether an item has no room for a text and a tag, or one of them is missing or null. -/
inductive LacksPart : JsonValue → Prop where
  | short {items : List JsonValue} (few : items.length < 2) : LacksPart (.array items)
  | field {fields : List (String × JsonValue)} {name : String}
    (isPart : name = "text" ∨ name = "tag")
    (missing : lookup? fields name = none ∨ lookup? fields name = some .null) :
    LacksPart (.object fields)

/-- Whether the text or the tag that an item gives is the empty string. -/
inductive HasEmptyPart : JsonValue → Prop where
  | pair {text tag : String} (empty : text = "" ∨ tag = "") :
    HasEmptyPart (.array [.string text, .string tag])
  | field {fields : List (String × JsonValue)} {name : String}
    (isPart : name = "text" ∨ name = "tag") (empty : lookup? fields name = some (.string "")) :
    HasEmptyPart (.object fields)

theorem LacksPart.not_fromJson {item : JsonValue} (lacks : item.LacksPart) (token : Token) :
    ¬Token.FromJson item token := by
  intro shown
  cases shown with
  | pair =>
    cases lacks with
    | short few => exact absurd few (by simp)
  | object ofText ofTag =>
    cases lacks with
    | field isPart missing =>
      rcases isPart with rfl | rfl
      · simp [ofText] at missing
      · simp [ofTag] at missing

end JsonValue

/-- A word that an item shows is complete unless the item has an empty part. -/
theorem Token.FromJson.isComplete_iff {item : JsonValue} {token : Token}
    (shown : Token.FromJson item token) : token.IsComplete ↔ ¬item.HasEmptyPart := by
  rw [Token.IsComplete, ← not_or, not_iff_not]
  cases shown with
  | pair =>
    refine ⟨JsonValue.HasEmptyPart.pair, fun hasEmpty => ?_⟩
    cases hasEmpty with
    | pair empty => exact empty
  | object ofText ofTag =>
    constructor
    · rintro (empty | empty)
      · exact JsonValue.HasEmptyPart.field (Or.inl rfl) (empty ▸ ofText)
      · exact JsonValue.HasEmptyPart.field (Or.inr rfl) (empty ▸ ofTag)
    · rintro (_ | ⟨rfl | rfl, empty⟩)
      · exact Or.inl (by simpa [ofText] using empty)
      · exact Or.inr (by simpa [ofTag] using empty)

/-! ### Sentences -/

theorem Chunker.exists_chunk_iff {chunker : Chunker} {tokens : List Token} :
    (∃ tree, chunker.chunk tokens = .ok tree) ↔ ∀ token ∈ tokens, token.IsComplete := by
  rw [chunk_eq, ← malformed?_eq_none_iff tokens 0]
  cases malformed? 0 tokens <;> simp

namespace Token

/-- What shows a word has a property just if the word has a property that goes with it. -/
theorem forall_mem_iff_of_forall₂ {Item : Type} {shows : Item → Token → Prop}
    {holds : Item → Prop} {holdsOf : Token → Prop} {items : List Item} {tokens : List Token}
    (shown : List.Forall₂ shows items tokens)
    (goesWith : ∀ item token, shows item token → (holdsOf token ↔ holds item)) :
    (∀ token ∈ tokens, holdsOf token) ↔ ∀ item ∈ items, holds item := by
  induction shown with
  | nil => exact ⟨fun _ => List.forall_mem_nil _, fun _ => List.forall_mem_nil _⟩
  | cons ofFirst _ inductionHypothesis =>
    rw [List.forall_mem_cons, List.forall_mem_cons, inductionHypothesis, goesWith _ _ ofFirst]

theorem isComplete_of_ofLine {line : String} {tokens : List Token}
    (isRead : ofLine line = .ok tokens) : ∀ token ∈ tokens, token.IsComplete := by
  have shown := ((areRead_ofLine line).shown tokens).mp isRead
  refine (forall_mem_iff_of_forall₂ shown fun run token ofRun => ?_).mpr fun _ _ => trivial
  exact iff_true_intro ofRun.complete

/-- A sentence that is read from a line can be chunked. One that is read from a JSON array can be
chunked just if no item has an empty text or an empty tag. In either form an item without its text
or its tag is reported at its place if those before it show words. -/
theorem read_complete_unless_empty (text : String) :
    (∀ tokens, ofLine text = .ok tokens →
      (∀ token ∈ tokens, token.IsComplete) ∧
      ∀ chunker : Chunker, ∃ tree, chunker.chunk tokens = .ok tree) ∧
    (∀ before run after, Text.words text = before ++ run :: after →
      (∀ earlier ∈ before, ∃ token, FromSlashed earlier token) →
      (∀ token, ¬FromSlashed run token) →
      ∃ fault, ofLine text = .error ⟨before.length, fault⟩) ∧
    (∀ tokens, ofJsonText text = .ok tokens →
      ∃ items, JsonValue.ofText? text = some (.array items) ∧
        ((∀ token ∈ tokens, token.IsComplete) ↔ ∀ item ∈ items, ¬item.HasEmptyPart) ∧
        ∀ chunker : Chunker, (∃ tree, chunker.chunk tokens = .ok tree) ↔
          ∀ item ∈ items, ¬item.HasEmptyPart) ∧
    ∀ before item after, JsonValue.ofText? text = some (.array (before ++ item :: after)) →
      (∀ earlier ∈ before, ∃ token, FromJson earlier token) → item.LacksPart →
      ∃ fault, ofJsonText text = .error ⟨before.length, fault⟩ := by
  refine ⟨fun tokens isRead => ?_, (areRead_ofLine text).refused, fun tokens isRead => ?_, ?_⟩
  · have areComplete := isComplete_of_ofLine isRead
    exact ⟨areComplete, fun _ => Chunker.exists_chunk_iff.mpr areComplete⟩
  · obtain ⟨items, isArray⟩ := exists_array_of_ofJsonText isRead
    have shown := ((areRead_ofJsonText isArray).shown tokens).mp isRead
    have areComplete := forall_mem_iff_of_forall₂ shown fun _ _ => FromJson.isComplete_iff
    exact ⟨items, isArray, areComplete, fun _ => Chunker.exists_chunk_iff.trans areComplete⟩
  · intro before item after isArray areRead lacks
    exact (areRead_ofJsonText isArray).refused before item after rfl areRead lacks.not_fromJson

theorem read_complete_unless_empty_dog :
    (∃ fault, ofLine "The/DT dog/" = .error ⟨1, fault⟩) ∧
      ofJsonText "[[\"dog\",\"NN\"]]" = .ok [⟨"dog", "NN"⟩] ∧
      (∀ chunker : Chunker, ∃ tree, chunker.chunk [⟨"dog", "NN"⟩] = .ok tree) ∧
      ∃ fault, ofJsonText "[[\"dog\",\"NN\"],\x7b\"text\":\"barks\",\"tag\":null\x7d]" =
        .error ⟨1, fault⟩ := by
  have ofDog : JsonLexeme.ofChars? 0 "[[\"dog\",\"NN\"]]".toList =
      some (toArray [(⟨"dog", "NN"⟩, .pair)]).lexemes := by decide +kernel
  have isDog := (JsonValue.ofText?_of_lexemes ofDog).trans (if_pos (by decide))
  have isRead := ofJsonText_of_lexemes ofDog
  have ofBarks : JsonLexeme.ofChars? 0
      "[[\"dog\",\"NN\"],\x7b\"text\":\"barks\",\"tag\":null\x7d]".toList =
      some (JsonValue.array ([toItem ⟨"dog", "NN"⟩ .pair] ++
        [.object [("text", .string "barks"), ("tag", .null)]])).lexemes := by decide +kernel
  have isBarks := (JsonValue.ofText?_of_lexemes ofBarks).trans (if_pos (by decide))
  refine ⟨?_, isRead, fun chunker => ?_, ?_⟩
  · refine (read_complete_unless_empty _).2.1 ["The/DT"] "dog/" [] (by decide) ?_ ?_
    · exact List.forall_mem_singleton.mpr
        ⟨⟨"The", "DT"⟩, ⟨by decide, by decide, by decide, by decide⟩⟩
    · exact fun token shown => nomatch ofSlashed_eq_ok_iff.mpr shown
  · obtain ⟨items, isArray, _, chunks⟩ := (read_complete_unless_empty _).2.2.1 _ isRead
    cases isArray.symm.trans isDog
    refine (chunks chunker).mpr (List.forall_mem_singleton.mpr fun hasEmpty => ?_)
    cases hasEmpty with
    | pair empty => exact absurd empty (by decide)
  · exact (read_complete_unless_empty _).2.2.2 _ _ [] isBarks
      (List.forall_mem_singleton.mpr ⟨_, fromJson_toItem _ _⟩)
      (JsonValue.LacksPart.field (Or.inr rfl) (Or.inr rfl))

/-- An empty tag passes the reader of JSON arrays, although the reader of lines does not take it
and every chunker refuses it. -/
theorem ofJsonText_takes_empty :
    ofJsonText "[[\"dog\",\"\"]]" = .ok [⟨"dog", ""⟩] ∧
      ofLine "dog/" = .error ⟨0, .itemWithoutTag "dog/"⟩ ∧
      ∀ chunker : Chunker, chunker.chunk [⟨"dog", ""⟩] = .error ⟨0, .missingTag "dog"⟩ := by
  have ofDog : JsonLexeme.ofChars? 0 "[[\"dog\",\"\"]]".toList =
      some (toArray [(⟨"dog", ""⟩, .pair)]).lexemes := by decide +kernel
  refine ⟨ofJsonText_of_lexemes ofDog, by rfl, fun chunker => ?_⟩
  rw [Chunker.chunk_eq]
  rfl

end Token

end ShallowParse
