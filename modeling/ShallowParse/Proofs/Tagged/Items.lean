/-
This file proves what comes of a row of items when each is read by itself: their words in
order, or a report with the place of the first item that shows no word. The runs of a line
and the items of a JSON array are both read in this way.
-/

import Mathlib.Data.List.Forall2
import ShallowParse.Tagged.Items

namespace ShallowParse.Token

variable {Item : Type}

section

variable {read : Item → Except InputFault Token}

/-- The rest is read if an item is. -/
theorem allOf_cons_of_ok {item : Item} {token : Token} (isRead : read item = .ok token)
    (index : Nat) (items : List Item) :
    allOf read index (item :: items) = (allOf read (index + 1) items).map (token :: ·) := by
  rw [allOf, isRead]
  cases allOf read (index + 1) items <;> rfl

theorem allOf_cons_of_error {item : Item} {fault : InputFault} (failed : read item = .error fault)
    (index : Nat) (items : List Item) :
    allOf read index (item :: items) = .error ⟨index, fault⟩ := by
  rw [allOf, failed]
  rfl

theorem allOf_eq_ok_iff {index : Nat} {items : List Item} {tokens : List Token} :
    allOf read index items = .ok tokens ↔
      List.Forall₂ (fun item token => read item = .ok token) items tokens := by
  induction items generalizing index tokens with
  | nil =>
    rw [allOf, List.forall₂_nil_left_iff]
    exact ⟨fun same => (Except.ok.inj same).symm, fun same => congrArg _ same.symm⟩
  | cons item items inductionHypothesis =>
    rw [List.forall₂_cons_left_iff]
    simp only [← @inductionHypothesis (index + 1)]
    cases isRead : read item with
    | error fault =>
      rw [allOf_cons_of_error isRead]
      exact ⟨nofun, fun ⟨_, _, other, _⟩ => nomatch other⟩
    | ok token =>
      rw [allOf_cons_of_ok isRead]
      cases allOf read (index + 1) items with
      | error error => exact ⟨nofun, fun ⟨_, _, _, other, _⟩ => nomatch other⟩
      | ok others =>
        constructor
        · intro same
          exact ⟨token, others, rfl, rfl, (Except.ok.inj same).symm⟩
        · rintro ⟨_, _, sameToken, sameOthers, rfl⟩
          cases sameToken
          cases sameOthers
          rfl

/-- Items that can be read only count for the place of the first one that cannot. -/
theorem allOf_append_of_error {before : List Item}
    (areRead : ∀ earlier ∈ before, ∃ token, read earlier = .ok token) {item : Item}
    {fault : InputFault} (failed : read item = .error fault) (index : Nat) (after : List Item) :
    allOf read index (before ++ item :: after) = .error ⟨index + before.length, fault⟩ := by
  induction before generalizing index with
  | nil => exact allOf_cons_of_error failed index after
  | cons first before inductionHypothesis =>
    obtain ⟨⟨token, isRead⟩, areOthers⟩ := List.forall_mem_cons.mp areRead
    rw [List.cons_append, allOf_cons_of_ok isRead, inductionHypothesis areOthers,
      List.length_cons, Nat.add_right_comm]
    rfl

end

/-- Whether an outcome is what comes of items of which each shows at most one word. -/
structure AreRead (shows : Item → Token → Prop) (items : List Item)
    (outcome : Except MalformedInput (List Token)) : Prop where
  /-- There is a sentence just if each item shows a word. -/
  accepted : (∃ tokens, outcome = .ok tokens) ↔ ∀ item ∈ items, ∃ token, shows item token
  /-- The sentence has the words that the items show, in order. -/
  shown : ∀ tokens, outcome = .ok tokens ↔ List.Forall₂ shows items tokens
  /-- Otherwise the place of the first item that shows no word is reported. -/
  refused : ∀ before item after, items = before ++ item :: after →
    (∀ earlier ∈ before, ∃ token, shows earlier token) → (∀ token, ¬shows item token) →
    ∃ fault, outcome = .error ⟨before.length, fault⟩

/-- Each item shows a word just if there is a row of the words shown. -/
theorem exists_forall₂_iff {shows : Item → Token → Prop} {items : List Item} :
    (∃ tokens, List.Forall₂ shows items tokens) ↔ ∀ item ∈ items, ∃ token, shows item token := by
  induction items with
  | nil => exact ⟨fun _ => List.forall_mem_nil _, fun _ => ⟨[], List.Forall₂.nil⟩⟩
  | cons item items inductionHypothesis =>
    rw [List.forall_mem_cons, ← inductionHypothesis]
    constructor
    · rintro ⟨_, shown⟩
      obtain ⟨token, tokens, ofItem, ofItems, rfl⟩ := List.forall₂_cons_left_iff.mp shown
      exact ⟨⟨token, ofItem⟩, tokens, ofItems⟩
    · rintro ⟨⟨token, ofItem⟩, tokens, ofItems⟩
      exact ⟨token :: tokens, List.Forall₂.cons ofItem ofItems⟩

/-- Items are read in order if the reader of a single item finds what it shows. -/
theorem areRead_allOf {read : Item → Except InputFault Token} {shows : Item → Token → Prop}
    (read_iff : ∀ item token, read item = .ok token ↔ shows item token) (items : List Item) :
    AreRead shows items (allOf read 0 items) := by
  have isShown : (fun item token => read item = .ok token) = shows :=
    funext fun item => funext fun token => propext (read_iff item token)
  subst isShown
  refine ⟨?_, fun tokens => allOf_eq_ok_iff, ?_⟩
  · simp only [allOf_eq_ok_iff, exists_forall₂_iff]
  · rintro before item after rfl areRead unread
    cases failed : read item with
    | ok token => exact absurd failed (unread token)
    | error fault =>
      refine ⟨fault, ?_⟩
      rw [allOf_append_of_error areRead failed, Nat.zero_add]

end ShallowParse.Token
