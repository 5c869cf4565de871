/-
This file proves that no way of a pattern takes fewer symbols than the length of
its shortest match. A pattern without such a length has no way at all. Lengths that
are counted no further than a limit are the true ones up to that limit.
-/

import ShallowParse.Proofs.Pattern.Ways

namespace ShallowParse

/-! ### Lists -/

namespace Ways

variable {Item : Type}

/-- Whether no way takes fewer items, or there is no way if there is no such number. -/
def TakeAtLeast (ways : Ways Item) : Option Nat → Prop
  | some least => ∀ items, ∀ rest ∈ ways items, least + rest.length ≤ items.length
  | none => ∀ items, ways items = []

section

variable {ways : Ways Item}

theorem TakeAtLeast.le {shortest : Option Nat} (takes : ways.TakeAtLeast shortest)
    {items rest : List Item} (isWay : rest ∈ ways items) :
    ∃ least, shortest = some least ∧ least + rest.length ≤ items.length := by
  cases shortest with
  | some least => exact ⟨least, rfl, takes items rest isWay⟩
  | none =>
    rw [takes items] at isWay
    cases isWay

theorem TakeAtLeast.of_le {shortest : Option Nat}
    (takes : ∀ items, ∀ rest ∈ ways items,
      ∃ least, shortest = some least ∧ least + rest.length ≤ items.length) :
    ways.TakeAtLeast shortest := by
  cases shortest with
  | some least =>
    intro items rest isWay
    obtain ⟨_, same, within⟩ := takes items rest isWay
    exact Option.some.inj same ▸ within
  | none =>
    refine fun items => List.eq_nil_iff_forall_not_mem.mpr fun rest isWay => ?_
    obtain ⟨_, impossible, _⟩ := takes items rest isWay
    cases impossible

theorem takeAtLeast_copies {least : Nat} (takes : ways.TakeAtLeast (some least)) (count : Nat) :
    (copies ways count).TakeAtLeast (some (least * count)) := by
  induction count with
  | zero =>
    intro items rest isWay
    obtain rfl := List.mem_singleton.mp isWay
    exact Nat.le_of_eq (Nat.zero_add rest.length)
  | succ count inductionHypothesis =>
    intro items rest isWay
    obtain ⟨first, isFirst, isRest⟩ := List.mem_flatMap.mp isWay
    have ofFirst := takes items first isFirst
    have ofOthers := inductionHypothesis first rest isRest
    rw [Nat.mul_succ]
    omega

theorem takeAtLeast_repeated {each : Nat} (takes : ways.TakeAtLeast (some each))
    (leaves : LeavesSuffix ways) (least : Nat) (most : Option Nat) :
    (repeated ways least most).TakeAtLeast (some (each * least)) := by
  intro items rest isWay
  obtain ⟨first, isFirst, isRest⟩ := List.mem_flatMap.mp isWay
  have required := takeAtLeast_copies takes least items first isFirst
  have isSuffix : rest <:+ first :=
    keeps_optional (leaves.keeps first) _ first List.suffix_rfl rest isRest
  exact Nat.le_trans (Nat.add_le_add_left isSuffix.length_le _) required

end

end Ways

/-! ### Patterns -/

namespace Pattern

open Ways

mutual

/-- The fewest symbols a match takes, or `none` where nothing can match. -/
def shortest : Pattern → Option Nat
  | exactly _ | startingWith _ => some 1
  | alternation alternatives => shortestOfAny alternatives
  | repetition body least _ => if least = 0 then some 0 else (shortest body).map (· * least)
  | sequence items => shortestOfAll items

def shortestOfAny : List Pattern → Option Nat
  | [] => none
  | alternative :: others =>
    match shortest alternative, shortestOfAny others with
    | some left, some right => some (min left right)
    | some left, none => some left
    | none, right => right

def shortestOfAll : List Pattern → Option Nat
  | [] => some 0
  | item :: others =>
    match shortest item, shortestOfAll others with
    | some left, some right => some (left + right)
    | _, _ => none

end

/-- Beyond the limit a factor makes no difference. -/
theorem min_mul_limit {factor : Nat} (positive : 1 ≤ factor) (length : Nat) :
    min (min length lengthLimit * factor) lengthLimit = min (length * factor) lengthLimit := by
  rcases Nat.le_total length lengthLimit with within | beyond
  · rw [Nat.min_eq_left within]
  · have limitReached : lengthLimit ≤ lengthLimit * factor := Nat.le_mul_of_pos_right _ positive
    have lengthReaches : lengthLimit * factor ≤ length * factor := Nat.mul_le_mul_right _ beyond
    rw [Nat.min_eq_right beyond, Nat.min_eq_right limitReached,
      Nat.min_eq_right (Nat.le_trans limitReached lengthReaches)]

mutual

/-- The limit may as well be applied once, to the length that was counted without it. -/
theorem minLength_eq : (pattern : Pattern) →
    pattern.minLength = pattern.shortest.map (min · lengthLimit)
  | exactly _ | startingWith _ => rfl
  | alternation alternatives => minLengthOfAny_eq alternatives
  | repetition body least most => by
    rw [minLength, shortest]
    split
    · rfl
    · rename_i required
      rw [minLength_eq body, Option.map_map, Option.map_map]
      congr 1
      funext each
      exact min_mul_limit (Nat.one_le_iff_ne_zero.mpr required) each
  | sequence items => by
    have counted := minLengthAfter_eq 0 items
    simp only [Nat.zero_min, Nat.zero_add] at counted
    exact counted

theorem minLengthOfAny_eq : (alternatives : List Pattern) →
    minLengthOfAny alternatives = (shortestOfAny alternatives).map (min · lengthLimit)
  | [] => rfl
  | alternative :: others => by
    rw [minLengthOfAny, shortestOfAny, minLength_eq alternative, minLengthOfAny_eq others]
    cases alternative.shortest with
    | none => rfl
    | some left =>
      cases shortestOfAny others with
      | none => rfl
      | some right => exact congrArg some (by dsimp only; omega)

theorem minLengthAfter_eq (before : Nat) : (items : List Pattern) →
    minLengthAfter (min before lengthLimit) items =
      (shortestOfAll items).map fun length => min (before + length) lengthLimit
  | [] => rfl
  | item :: others => by
    rw [minLengthAfter, shortestOfAll, minLength_eq item]
    cases item.shortest with
    | none => rfl
    | some first =>
      have counted : min (min before lengthLimit + min first lengthLimit) lengthLimit =
          min (before + first) lengthLimit := by omega
      rw [Option.map_some, Option.bind_some, counted, minLengthAfter_eq (before + first) others]
      cases shortestOfAll others with
      | none => rfl
      | some rest => exact congrArg some (by dsimp only; omega)

end

mutual

theorem takeAtLeast_shortest : (pattern : Pattern) → pattern.ways.TakeAtLeast pattern.shortest
  | exactly _ | startingWith _ => by
    intro symbols rest isWay
    rw [ways] at isWay
    rw [Nat.add_comm]
    exact shorter_of_mem_single _ symbols rest isWay
  | alternation alternatives => by
    rw [ways, shortest]
    exact takeAtLeast_shortestOfAny alternatives
  | repetition body least most => by
    have ofBody := takeAtLeast_shortest body
    rw [ways, shortest]
    split
    · rename_i noneRequired
      intro symbols rest isWay
      rw [Nat.zero_add]
      exact (leavesSuffix_repeated (leavesSuffix_ways body) least most symbols rest isWay).length_le
    · rename_i required
      cases isShortest : body.shortest with
      | some each =>
        rw [isShortest] at ofBody
        exact takeAtLeast_repeated ofBody (leavesSuffix_ways body) least most
      | none =>
        rw [isShortest] at ofBody
        obtain ⟨others, rfl⟩ := Nat.exists_eq_succ_of_ne_zero required
        intro symbols
        rw [repeated_succ, ofBody symbols]
        rfl
  | sequence items => by
    rw [ways, shortest]
    exact takeAtLeast_shortestOfAll items

theorem takeAtLeast_shortestOfAny : (alternatives : List Pattern) →
    (waysOfAny alternatives).TakeAtLeast (shortestOfAny alternatives)
  | [] => fun _ => rfl
  | alternative :: others => by
    have ofFirst := takeAtLeast_shortest alternative
    have ofOthers := takeAtLeast_shortestOfAny others
    refine .of_le fun symbols rest isWay => ?_
    rcases List.mem_append.mp isWay with inFirst | inOthers
    · obtain ⟨left, isLeft, taken⟩ := ofFirst.le inFirst
      rw [shortestOfAny, isLeft]
      cases shortestOfAny others with
      | some right => exact ⟨min left right, rfl, by omega⟩
      | none => exact ⟨left, rfl, taken⟩
    · obtain ⟨right, isRight, taken⟩ := ofOthers.le inOthers
      rw [shortestOfAny, isRight]
      cases alternative.shortest with
      | some left => exact ⟨min left right, rfl, by omega⟩
      | none => exact ⟨right, rfl, taken⟩

theorem takeAtLeast_shortestOfAll : (items : List Pattern) →
    (waysInOrder items).TakeAtLeast (shortestOfAll items)
  | [] => fun symbols rest isWay => by
    obtain rfl := List.mem_singleton.mp isWay
    exact Nat.le_of_eq (Nat.zero_add rest.length)
  | item :: others => by
    have ofFirst := takeAtLeast_shortest item
    have ofOthers := takeAtLeast_shortestOfAll others
    refine .of_le fun symbols rest isWay => ?_
    obtain ⟨middle, isMiddle, isRest⟩ := List.mem_flatMap.mp isWay
    obtain ⟨left, isLeft, taken⟩ := ofFirst.le isMiddle
    obtain ⟨right, isRight, takenLater⟩ := ofOthers.le isRest
    exact ⟨left + right, by rw [shortestOfAll, isLeft, isRight], by omega⟩

end

end Pattern

end ShallowParse
