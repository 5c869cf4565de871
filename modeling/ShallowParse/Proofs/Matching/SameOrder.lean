/-
This file compares lists of ways. Two lists are in the same order if whatever is
looked for is found first at the same way, so ways that come again later do not
count. Where the order differs, the lists may still have the same members.

Both comparisons are kept when matches are put one after the other and when they
are alternatives. What follows from this alone is proved for both at once.
-/

import Mathlib.Tactic.ByContra
import ShallowParse.Proofs.Matching.Ways

namespace ShallowParse.Ways

variable {Rest Other : Type}

/-! ### The same order -/

/-- Of both lists the same is found first, whatever is looked for. -/
def SameOrder (first second : List Rest) : Prop :=
  ∀ accepts : Rest → Bool, first.find? accepts = second.find? accepts

namespace SameOrder

theorem refl (rests : List Rest) : SameOrder rests rests := fun _ => rfl

theorem symm {first second : List Rest} (same : SameOrder first second) :
    SameOrder second first := fun accepts => (same accepts).symm

theorem trans {first second third : List Rest} (before : SameOrder first second)
    (after : SameOrder second third) : SameOrder first third :=
  fun accepts => (before accepts).trans (after accepts)

theorem mem_iff {first second : List Rest} (same : SameOrder first second) (rest : Rest) :
    rest ∈ first ↔ rest ∈ second := by
  classical
  have found (rests : List Rest) : rest ∈ rests ↔ (rests.find? (decide <| · = rest)).isSome := by
    rw [List.find?_isSome]
    simp
  rw [found, found, same]

theorem head?_eq {first second : List Rest} (same : SameOrder first second) :
    first.head? = second.head? := by
  have found (rests : List Rest) : rests.head? = rests.find? fun _ => true := by
    cases rests <;> rfl
  rw [found, found, same]

theorem append {first second first' second' : List Rest} (same : SameOrder first second)
    (same' : SameOrder first' second') : SameOrder (first ++ first') (second ++ second') := by
  intro accepts
  rw [List.find?_append, List.find?_append, same, same']

theorem findSome?_eq {first second : List Rest} (same : SameOrder first second)
    (find : Rest → Option Other) : first.findSome? find = second.findSome? find := by
  have found (rests : List Rest) :
      rests.findSome? find = (rests.find? fun rest => (find rest).isSome).bind find := by
    induction rests with
    | nil => rfl
    | cons rest others inductionHypothesis =>
      rw [List.findSome?_cons, List.find?_cons, inductionHypothesis]
      cases isFound : find rest with
      | none => rfl
      | some other => exact isFound.symm
  rw [found, found, same]

theorem flatMap {first second : List Other} (same : SameOrder first second)
    {goOn goOn' : Other → List Rest}
    (sameOn : ∀ rest ∈ second, SameOrder (goOn rest) (goOn' rest)) :
    SameOrder (first.flatMap goOn) (second.flatMap goOn') := by
  have sameStart : SameOrder (first.flatMap goOn) (second.flatMap goOn) := by
    intro accepts
    rw [List.find?_flatMap, List.find?_flatMap, same.findSome?_eq]
  refine sameStart.trans ?_
  clear same sameStart
  induction second with
  | nil => exact refl []
  | cons rest others inductionHypothesis =>
    obtain ⟨here, inOthers⟩ := List.forall_mem_cons.mp sameOn
    rw [List.flatMap_cons, List.flatMap_cons]
    exact here.append (inductionHypothesis inOthers)

/-- What came before adds nothing. -/
theorem append_of_subset {first later : List Rest} (subset : later ⊆ first) :
    SameOrder (first ++ later) first := by
  intro accepts
  rw [List.find?_append]
  cases isFound : first.find? accepts with
  | some _ => rfl
  | none =>
    rw [List.find?_eq_none] at isFound
    rw [Option.none_or, List.find?_eq_none]
    exact fun rest member => isFound rest (subset member)

/-- Lists that hold one thing only, if anything, are in the same order. -/
theorem of_only {first second : List Rest} {only : Rest} (inFirst : ∀ rest ∈ first, rest = only)
    (inSecond : ∀ rest ∈ second, rest = only) (some : first ≠ []) (some' : second ≠ []) :
    SameOrder first second := by
  have single (rests : List Rest) (areOnly : ∀ rest ∈ rests, rest = only) (some : rests ≠ []) :
      SameOrder rests [only] := by
    obtain ⟨head, tail, rfl⟩ := List.exists_cons_of_ne_nil some
    obtain ⟨rfl, inTail⟩ := List.forall_mem_cons.mp areOnly
    exact append_of_subset fun rest member => List.mem_singleton.mpr (inTail rest member)
  exact (single first inFirst some).trans (single second inSecond some').symm

/-- If it is possible to go on from one place only, it is as if this were the only one. -/
theorem flatMap_of_only {rests : List Rest} {goOn : Rest → List Rest} {only : Rest}
    (member : only ∈ rests) (isOnly : ∀ rest ∈ rests, goOn rest ≠ [] → rest = only) :
    SameOrder (rests.flatMap goOn) (goOn only) := by
  induction rests with
  | nil => cases member
  | cons rest others inductionHypothesis =>
    obtain ⟨here, inOthers⟩ := List.forall_mem_cons.mp isOnly
    rw [List.flatMap_cons]
    by_cases stuck : goOn rest = []
    · rw [stuck, List.nil_append]
      rcases List.mem_cons.mp member with rfl | isOther
      · rw [stuck, List.flatMap_eq_nil_iff.mpr]
        · exact refl []
        · intro other isOther
          by_contra goes
          exact goes (inOthers other isOther goes ▸ stuck)
      · exact inductionHypothesis isOther inOthers
    · obtain rfl := here stuck
      refine append_of_subset fun left isLeft => ?_
      obtain ⟨other, isOther, isLeft⟩ := List.mem_flatMap.mp isLeft
      rwa [inOthers other isOther (List.ne_nil_of_mem isLeft)] at isLeft

end SameOrder

/-! ### Comparisons -/

/-- A way to compare lists of ways that is kept by alternatives and by going on. -/
structure Comparison (Rest : Type) where
  holds : List Rest → List Rest → Prop
  ofSameOrder : ∀ {first second}, SameOrder first second → holds first second
  trans : ∀ {first second third}, holds first second → holds second third → holds first third
  append : ∀ {first second first' second'}, holds first second → holds first' second' →
    holds (first ++ first') (second ++ second')
  flatMap : ∀ {first second : List Rest} {goOn goOn' : Rest → List Rest}, holds first second →
    (∀ rest ∈ second, holds (goOn rest) (goOn' rest)) →
    holds (first.flatMap goOn) (second.flatMap goOn')

namespace Comparison

/-- The comparison that asks for the same order. -/
def order : Comparison Rest where
  holds := SameOrder
  ofSameOrder := id
  trans := SameOrder.trans
  append := SameOrder.append
  flatMap same sameOn := same.flatMap sameOn

/-- The comparison that asks for the same members. -/
def members : Comparison Rest where
  holds first second := ∀ rest, rest ∈ first ↔ rest ∈ second
  ofSameOrder := SameOrder.mem_iff
  trans before after rest := (before rest).trans (after rest)
  append same same' rest := by rw [List.mem_append, List.mem_append, same, same']
  flatMap same sameOn left := by
    simp only [List.mem_flatMap, same]
    exact exists_congr fun rest => and_congr_right fun member => sameOn rest member left

theorem refl (comparison : Comparison Rest) (rests : List Rest) : comparison.holds rests rests :=
  comparison.ofSameOrder (SameOrder.refl rests)

theorem flatMap_congr (comparison : Comparison Rest) {places : List Other}
    {goOn goOn' : Other → List Rest}
    (holds : ∀ place ∈ places, comparison.holds (goOn place) (goOn' place)) :
    comparison.holds (places.flatMap goOn) (places.flatMap goOn') := by
  induction places with
  | nil => exact comparison.refl []
  | cons place others inductionHypothesis =>
    obtain ⟨here, inOthers⟩ := List.forall_mem_cons.mp holds
    exact comparison.append here (inductionHypothesis inOthers)

/-- Several ways on from all places compare with all places for each way on. -/
def Exchanges (comparison : Comparison Rest) (rests : List Rest) (ways : List (Rest → List Rest)) :
    Prop :=
  comparison.holds (rests.flatMap fun rest => ways.flatMap fun goOn => goOn rest)
    (ways.flatMap fun goOn => rests.flatMap goOn)

theorem members_exchanges (rests : List Rest) (ways : List (Rest → List Rest)) :
    members.Exchanges rests ways := by
  intro left
  simp only [List.mem_flatMap]
  constructor
  · rintro ⟨rest, isRest, goOn, isWay, isLeft⟩
    exact ⟨goOn, isWay, rest, isRest, isLeft⟩
  · rintro ⟨goOn, isWay, rest, isRest, isLeft⟩
    exact ⟨rest, isRest, goOn, isWay, isLeft⟩

/-- If it is possible to go on from one place only, the order is kept. -/
theorem exchanges_of_only (comparison : Comparison Rest) {rests : List Rest}
    {ways : List (Rest → List Rest)}
    (isOnly : ∀ rest ∈ rests, ∀ other ∈ rests, (∃ goOn ∈ ways, goOn rest ≠ []) →
      (∃ goOn ∈ ways, goOn other ≠ []) → rest = other) :
    comparison.Exchanges rests ways := by
  refine comparison.ofSameOrder ?_
  have goes (rest : Rest) :
      (ways.flatMap fun goOn => goOn rest) ≠ [] ↔ ∃ goOn ∈ ways, goOn rest ≠ [] := by
    simp [List.flatMap_eq_nil_iff]
  by_cases some : ∃ rest ∈ rests, ∃ goOn ∈ ways, goOn rest ≠ []
  · obtain ⟨only, member, goesOn⟩ := some
    have sameStart : SameOrder (rests.flatMap fun rest => ways.flatMap fun goOn => goOn rest)
        (ways.flatMap fun goOn => goOn only) :=
      SameOrder.flatMap_of_only member fun rest isRest isGoing =>
        isOnly rest isRest only member ((goes rest).mp isGoing) goesOn
    refine sameStart.trans ((SameOrder.refl ways).flatMap fun goOn isWay => ?_)
    refine (SameOrder.flatMap_of_only member fun rest isRest isGoing => ?_).symm
    exact isOnly rest isRest only member ⟨goOn, isWay, isGoing⟩ goesOn
  · have stuck : ∀ rest ∈ rests, ∀ goOn ∈ ways, goOn rest = [] := by simpa using some
    have nothing : (ways.flatMap fun goOn => rests.flatMap goOn) = [] :=
      List.flatMap_eq_nil_iff.mpr fun goOn isWay =>
        List.flatMap_eq_nil_iff.mpr fun rest isRest => stuck rest isRest goOn isWay
    have nothing' : (rests.flatMap fun rest => ways.flatMap fun goOn => goOn rest) = [] :=
      List.flatMap_eq_nil_iff.mpr fun rest isRest =>
        List.flatMap_eq_nil_iff.mpr fun goOn isWay => stuck rest isRest goOn isWay
    rw [nothing, nothing']
    exact SameOrder.refl []

end Comparison

end ShallowParse.Ways
