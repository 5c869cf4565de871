/-
This file is about the order of ways. It says which way is the first that goes on,
and what it means that a way which takes nothing is preferred to none that takes
something. The latter is kept when matches are put one after the other and when
they are repeated.
-/

import Mathlib.Data.List.Basic
import Mathlib.Data.List.TakeWhile
import Mathlib.Tactic.ByContra
import ShallowParse.Proofs.Matching.Ways

namespace ShallowParse.Ways

variable {Item : Type}

/-! ### The first way that goes on -/

/-- The first of several ways that goes on in a certain sense. -/
def Picks (rests : List (List Item)) (goesOn : List Item → Prop) (rest : List Item) : Prop :=
  ∃ before later, rests = before ++ rest :: later ∧ (∀ passed ∈ before, ¬goesOn passed) ∧
    goesOn rest

theorem Picks.mem {rests : List (List Item)} {goesOn : List Item → Prop} {rest : List Item}
    (picks : Picks rests goesOn rest) : rest ∈ rests := by
  obtain ⟨before, later, rfl, _, _⟩ := picks
  exact List.mem_append_right _ List.mem_cons_self

theorem exists_picks {rests : List (List Item)} {goesOn : List Item → Prop}
    (some : ∃ rest ∈ rests, goesOn rest) : ∃ rest, Picks rests goesOn rest := by
  induction rests with
  | nil => simp at some
  | cons first others inductionHypothesis =>
    by_cases goes : goesOn first
    · exact ⟨first, [], others, rfl, List.forall_mem_nil _, goes⟩
    · rw [List.exists_mem_cons_iff] at some
      obtain ⟨rest, before, later, parted, passed, goesRest⟩ :=
        inductionHypothesis (some.resolve_left goes)
      exact ⟨rest, first :: before, later, congrArg _ parted,
        List.forall_mem_cons.mpr ⟨goes, passed⟩, goesRest⟩

theorem picks_append {first second : List (List Item)} {goesOn : List Item → Prop}
    {rest : List Item} (picks : Picks (first ++ second) goesOn rest) :
    Picks first goesOn rest ∨ (∀ passed ∈ first, ¬goesOn passed) ∧ Picks second goesOn rest := by
  obtain ⟨before, later, parted, passed, goes⟩ := picks
  rcases List.append_eq_append_iff.mp parted with
    ⟨middle, isBefore, isSecond⟩ | ⟨middle, isFirst, isLater⟩
  · subst isBefore
    rw [List.forall_mem_append] at passed
    exact Or.inr ⟨passed.1, middle, later, isSecond, passed.2, goes⟩
  · cases middle with
    | nil =>
      rw [List.append_nil] at isFirst
      subst isFirst
      exact Or.inr ⟨passed, [], later, isLater.symm, List.forall_mem_nil _, goes⟩
    | cons head tail =>
      obtain ⟨rfl, _⟩ := List.cons.inj isLater
      exact Or.inl ⟨before, tail, isFirst, passed, goes⟩

/-- Where several steps make up a way, the first step of the first way that goes on is the first
from which one does. -/
theorem picks_flatMap {rests : List (List Item)} {ways : Ways Item} {goesOn : List Item → Prop}
    {rest : List Item} (picks : Picks (rests.flatMap ways) goesOn rest) :
    ∃ middle, Picks rests (fun middle => ∃ rest ∈ ways middle, goesOn rest) middle ∧
      Picks (ways middle) goesOn rest := by
  induction rests with
  | nil =>
    obtain ⟨before, later, parted, _, _⟩ := picks
    simp at parted
  | cons first others inductionHypothesis =>
    rw [List.flatMap_cons] at picks
    rcases picks_append picks with inFirst | ⟨passed, inOthers⟩
    · refine ⟨first, ⟨[], others, rfl, List.forall_mem_nil _, rest, inFirst.mem, ?_⟩, inFirst⟩
      obtain ⟨_, _, _, _, goes⟩ := inFirst
      exact goes
    · obtain ⟨middle, ⟨before, later, parted, passedBefore, goes⟩, isPicked⟩ :=
        inductionHypothesis inOthers
      refine ⟨middle, ⟨first :: before, later, congrArg _ parted, ?_, goes⟩, isPicked⟩
      refine List.forall_mem_cons.mpr ⟨?_, passedBefore⟩
      rintro ⟨other, member, goesOther⟩
      exact passed other member goesOther

/-- The first of all ways is the first way from the first that goes on. -/
theorem head?_flatMap_of_picks {rests : List (List Item)} {ways : Ways Item} {rest : List Item}
    (picks : Picks rests (fun rest => ways rest ≠ []) rest) :
    (rests.flatMap ways).head? = (ways rest).head? := by
  obtain ⟨before, later, rfl, passed, goes⟩ := picks
  have nothing : before.flatMap ways = [] :=
    List.flatMap_eq_nil_iff.mpr fun other member => Classical.not_not.mp (passed other member)
  rw [List.flatMap_append, nothing, List.nil_append, List.flatMap_cons,
    List.head?_append_of_ne_nil _ goes]

/-! ### Taking nothing last -/

/-- Whether a way takes something. -/
def isShorter (items rest : List Item) : Bool :=
  rest.length < items.length

/-- No way that takes something stands only after one that takes nothing. -/
def EmptyLast (ways : Ways Item) : Prop :=
  ∀ items, ∀ rest ∈ ways items, rest.length < items.length →
    rest ∈ (ways items).takeWhile (isShorter items)

theorem emptyLast_of_shorter {ways : Ways Item}
    (shorter : ∀ items, ∀ rest ∈ ways items, rest.length < items.length) : EmptyLast ways := by
  intro items rest member _
  have all : ∀ other ∈ ways items, isShorter items other = true :=
    fun other isOther => decide_eq_true (shorter items other isOther)
  rwa [List.takeWhile_eq_self_iff.mpr all]

/-- Of ways that take nothing last, those before the first that goes on take something if it
does. -/
theorem EmptyLast.shorter_of_passed {ways : Ways Item} (emptyLast : EmptyLast ways)
    {items rest : List Item} {before later : List (List Item)}
    (parted : ways items = before ++ rest :: later) (shorter : rest.length < items.length)
    (isFirst : rest ∉ before) : ∀ passed ∈ before, passed.length < items.length := by
  have member := emptyLast items rest (parted ▸ List.mem_append_right _ List.mem_cons_self) shorter
  rw [parted] at member
  by_contra someLonger
  have stopped : (before ++ rest :: later).takeWhile (isShorter items) =
      before.takeWhile (isShorter items) := by
    rw [List.takeWhile_append, if_neg]
    intro sameLength
    have all := (List.takeWhile_prefix (isShorter items)).eq_of_length sameLength
    refine someLonger fun passed isPassed => ?_
    exact of_decide_eq_true (List.takeWhile_eq_self_iff.mp all passed isPassed)
  rw [stopped] at member
  exact isFirst (List.takeWhile_subset _ member)

/-- Of ways that take nothing last, those that take something do not go on if the first that goes
on takes nothing. -/
theorem EmptyLast.not_goesOn_of_picks {ways : Ways Item} (emptyLast : EmptyLast ways)
    {items : List Item} {goesOn : List Item → Prop} (picks : Picks (ways items) goesOn items)
    {rest : List Item} (member : rest ∈ ways items) (shorter : rest.length < items.length) :
    ¬goesOn rest := by
  obtain ⟨before, later, parted, passed, _⟩ := picks
  refine passed rest ?_
  have inFront := emptyLast items rest member shorter
  rw [parted, List.takeWhile_append] at inFront
  split at inFront
  · rw [List.takeWhile_cons_of_neg (by simp [isShorter]), List.append_nil] at inFront
    exact inFront
  · exact List.takeWhile_subset _ inFront

/-! ### Several steps -/

theorem isShorter_iff (items rest : List Item) :
    isShorter items rest = true ↔ rest.length < items.length :=
  decide_eq_true_iff

theorem mem_takeWhile_append {items rest : List Item} {first : List (List Item)}
    (member : rest ∈ first.takeWhile (isShorter items)) (second : List (List Item)) :
    rest ∈ (first ++ second).takeWhile (isShorter items) := by
  rw [List.takeWhile_append]
  split
  · exact List.mem_append_left _ (List.takeWhile_subset _ member)
  · exact member

/-- Ways that take something and then, if there are any others, one that takes nothing. -/
theorem exists_leading (items : List Item) (rests : List (List Item)) :
    ∃ others, rests = rests.takeWhile (isShorter items) ++ others ∧
      ∀ head tail, others = head :: tail → ¬head.length < items.length := by
  induction rests with
  | nil => exact ⟨[], rfl, fun _ _ impossible => by cases impossible⟩
  | cons rest rests inductionHypothesis =>
    by_cases shorter : isShorter items rest = true
    · obtain ⟨others, parted, stops⟩ := inductionHypothesis
      refine ⟨others, ?_, stops⟩
      rw [List.takeWhile_cons_of_pos shorter, List.cons_append, ← parted]
    · refine ⟨rest :: rests, by rw [List.takeWhile_cons_of_neg shorter, List.nil_append], ?_⟩
      intro head tail equal
      rw [← (List.cons.inj equal).1, ← isShorter_iff]
      exact shorter

/-- Steps that each take nothing last do so together. -/
theorem EmptyLast.flatMap {first second : Ways Item} (ofFirst : EmptyLast first)
    (leavesFirst : LeavesSuffix first) (ofSecond : EmptyLast second)
    (leavesSecond : LeavesSuffix second) :
    EmptyLast fun items => (first items).flatMap second := by
  intro items rest member shorter
  obtain ⟨middle, isMiddle, isRest⟩ := List.mem_flatMap.mp member
  obtain ⟨others, parted, stops⟩ := exists_leading items (first items)
  have areShorter : ∀ other ∈ ((first items).takeWhile (isShorter items)).flatMap second,
      isShorter items other = true := by
    intro other isOther
    obtain ⟨step, isStep, isLeft⟩ := List.mem_flatMap.mp isOther
    rw [isShorter_iff]
    exact Nat.lt_of_le_of_lt (leavesSecond step other isLeft).length_le
      ((isShorter_iff _ _).mp (List.mem_takeWhile_imp isStep))
  show rest ∈ ((first items).flatMap second).takeWhile (isShorter items)
  rw [parted, List.flatMap_append, List.takeWhile_append_of_pos areShorter, List.mem_append]
  by_cases middleShorter : middle.length < items.length
  · have inFront := ofFirst items middle isMiddle middleShorter
    exact Or.inl (List.mem_flatMap.mpr ⟨middle, inFront, isRest⟩)
  · refine Or.inr ?_
    cases others with
    | nil =>
      rw [List.append_nil] at parted
      rw [parted] at isMiddle
      exact absurd ((isShorter_iff _ _).mp (List.mem_takeWhile_imp isMiddle)) middleShorter
    | cons head tail =>
      have isHead : head ∈ first items := parted ▸ List.mem_append_right _ List.mem_cons_self
      rw [leavesFirst.eq_of_not_lt isMiddle middleShorter] at isRest
      rw [List.flatMap_cons, leavesFirst.eq_of_not_lt isHead (stops head tail rfl)]
      exact mem_takeWhile_append (ofSecond items rest isRest shorter) _

theorem emptyLast_copies {ways : Ways Item} (emptyLast : EmptyLast ways)
    (leaves : LeavesSuffix ways) (count : Nat) : EmptyLast (copies ways count) := by
  induction count with
  | zero =>
    intro items rest member shorter
    rw [List.mem_singleton.mp member] at shorter
    exact absurd shorter (Nat.lt_irrefl _)
  | succ count inductionHypothesis =>
    exact emptyLast.flatMap leaves inductionHypothesis (leavesSuffix_copies leaves count)

/-- Optional copies take nothing last if one copy does, whatever comes after a copy that takes
something. -/
theorem emptyLast_of_optional {ways : Ways Item} (emptyLast : EmptyLast ways)
    (goOn : Ways Item) (leavesOn : LeavesSuffix goOn) :
    EmptyLast fun items =>
      (ways items).flatMap
        (fun rest => if rest.length < items.length then goOn rest else [rest]) ++ [items] := by
  intro items rest member shorter
  rw [List.mem_append, List.mem_flatMap, List.mem_singleton] at member
  rcases member with ⟨middle, isMiddle, isRest⟩ | isItems
  · by_cases middleShorter : middle.length < items.length
    · rw [if_pos middleShorter] at isRest
      obtain ⟨others, parted, _⟩ := exists_leading items (ways items)
      show rest ∈ ((ways items).flatMap _ ++ [items]).takeWhile (isShorter items)
      rw [parted, List.flatMap_append, List.append_assoc, List.takeWhile_append_of_pos]
      · refine List.mem_append_left _ (List.mem_flatMap.mpr ⟨middle, ?_, ?_⟩)
        · exact emptyLast items middle isMiddle middleShorter
        · rwa [if_pos middleShorter]
      · intro other isOther
        obtain ⟨step, isStep, isLeft⟩ := List.mem_flatMap.mp isOther
        have stepShorter := (isShorter_iff _ _).mp (List.mem_takeWhile_imp isStep)
        rw [if_pos stepShorter] at isLeft
        rw [isShorter_iff]
        exact Nat.lt_of_le_of_lt (leavesOn step other isLeft).length_le stepShorter
    · rw [if_neg middleShorter, List.mem_singleton] at isRest
      exact absurd (isRest ▸ shorter) middleShorter
  · rw [isItems] at shorter
    exact absurd shorter (Nat.lt_irrefl _)

theorem emptyLast_optional {ways : Ways Item} (emptyLast : EmptyLast ways)
    (leaves : LeavesSuffix ways) (most : Option Nat) : EmptyLast (optional ways most) := by
  cases most with
  | none =>
    show EmptyLast (endless ways)
    rw [funext (endless_eq ways)]
    exact emptyLast_of_optional emptyLast _ (leavesSuffix_endless leaves)
  | some most =>
    cases most with
    | zero => exact emptyLast_copies emptyLast leaves 0
    | succ more =>
      exact emptyLast_of_optional emptyLast _ (leavesSuffix_upTo leaves more)

theorem emptyLast_repeated {ways : Ways Item} (emptyLast : EmptyLast ways)
    (leaves : LeavesSuffix ways) (least : Nat) (most : Option Nat) :
    EmptyLast (repeated ways least most) := by
  refine (emptyLast_copies emptyLast leaves least).flatMap (leavesSuffix_copies leaves least)
    (emptyLast_optional emptyLast leaves _) ?_
  cases most with
  | none => exact leavesSuffix_endless leaves
  | some most => exact leavesSuffix_upTo leaves _

end ShallowParse.Ways
