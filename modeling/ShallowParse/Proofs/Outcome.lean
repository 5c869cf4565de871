/-
This file says when a step that may fail succeeds or fails after another one, when an
outcome that was changed is a success or a failure, and when a row of steps succeeds.
-/

import Mathlib.Data.List.Forall2

namespace ShallowParse.Outcome

variable {Error Other Value Result : Type}

/-- Two steps succeed if the first does and the second does with what the first has made. -/
theorem bind_eq_ok_iff {first : Except Error Value} {second : Value → Except Error Result}
    {result : Result} :
    (first >>= second) = .ok result ↔ ∃ value, first = .ok value ∧ second value = .ok result := by
  cases first with
  | error error => exact ⟨nofun, fun ⟨_, failed, _⟩ => nomatch failed⟩
  | ok value =>
    refine ⟨fun done => ⟨value, rfl, done⟩, ?_⟩
    rintro ⟨_, same, done⟩
    cases same
    exact done

/-- Two steps fail if the first does, or the second does with what the first has made. -/
theorem bind_eq_error_iff {first : Except Error Value} {second : Value → Except Error Result}
    {error : Error} :
    (first >>= second) = .error error ↔
      first = .error error ∨ ∃ value, first = .ok value ∧ second value = .error error := by
  cases first with
  | error other =>
    refine ⟨fun failed => Or.inl (congrArg _ (Except.error.inj failed)), ?_⟩
    rintro (same | ⟨_, done, _⟩)
    · exact congrArg _ (Except.error.inj same)
    · cases done
  | ok value =>
    refine ⟨fun failed => Or.inr ⟨value, rfl, failed⟩, ?_⟩
    rintro (impossible | ⟨_, same, failed⟩)
    · cases impossible
    · cases same
      exact failed

theorem mapError_eq_ok_iff {outcome : Except Error Value} {change : Error → Other} {value : Value} :
    outcome.mapError change = .ok value ↔ outcome = .ok value := by
  cases outcome with
  | error error => exact ⟨nofun, nofun⟩
  | ok other => exact ⟨fun same => congrArg _ (Except.ok.inj same),
      fun same => congrArg _ (Except.ok.inj same)⟩

theorem map_eq_ok_iff {outcome : Except Error Value} {change : Value → Result} {result : Result} :
    outcome.map change = .ok result ↔ ∃ value, outcome = .ok value ∧ change value = result := by
  cases outcome with
  | error error => exact ⟨nofun, fun ⟨_, failed, _⟩ => nomatch failed⟩
  | ok value =>
    refine ⟨fun done => ⟨value, rfl, Except.ok.inj done⟩, ?_⟩
    rintro ⟨_, same, rfl⟩
    cases same
    rfl

theorem map_eq_error_iff {outcome : Except Error Value} {change : Value → Result} {error : Error} :
    outcome.map change = .error error ↔ outcome = .error error := by
  cases outcome with
  | error other => exact ⟨fun same => congrArg _ (Except.error.inj same),
      fun same => congrArg _ (Except.error.inj same)⟩
  | ok value => exact ⟨nofun, nofun⟩

/-- A row of steps succeeds if each step does. -/
theorem mapM_eq_ok_iff {Item : Type} {step : Item → Except Error Value} {items : List Item}
    {values : List Value} :
    items.mapM step = .ok values ↔
      List.Forall₂ (fun item value => step item = .ok value) items values := by
  induction items generalizing values with
  | nil =>
    rw [List.forall₂_nil_left_iff]
    exact ⟨fun same => (Except.ok.inj same).symm, fun isNil => isNil ▸ rfl⟩
  | cons item others inductionHypothesis =>
    rw [List.mapM_cons, bind_eq_ok_iff, List.forall₂_cons_left_iff]
    constructor
    · rintro ⟨value, ofItem, done⟩
      obtain ⟨rest, ofOthers, same⟩ := bind_eq_ok_iff.mp done
      exact ⟨value, rest, ofItem, inductionHypothesis.mp ofOthers, (Except.ok.inj same).symm⟩
    · rintro ⟨value, rest, ofItem, ofOthers, rfl⟩
      exact ⟨value, ofItem, bind_eq_ok_iff.mpr ⟨rest, inductionHypothesis.mpr ofOthers, rfl⟩⟩

end ShallowParse.Outcome
