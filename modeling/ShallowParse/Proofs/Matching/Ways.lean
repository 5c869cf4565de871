/-
This file defines matching by backtracking. The ways to match at the beginning of
a list are given in order of preference, each by what it leaves of the list, so
one after the other, alternatives and repetitions are functions on such lists.

A repetition takes the copies it must take and then as many more as possible. One
more copy is preferred to no more, in each of its ways in turn. A copy beyond the
required ones that takes nothing is the last.
-/

namespace ShallowParse

/-- The ways to match at the beginning of a list, in order of preference: what each leaves. -/
abbrev Ways (Item : Type) := List Item → List (List Item)

namespace Ways

variable {Item : Type}

/-- One item that passes a test. -/
def single (accepts : Item → Bool) : Ways Item
  | [] => []
  | item :: rest => if accepts item then [rest] else []

/-- So many copies, one after the other. -/
def copies (ways : Ways Item) : Nat → Ways Item
  | 0, items => [items]
  | count + 1, items => (ways items).flatMap (copies ways count)

/-- As many copies as possible up to a bound. -/
def upTo (ways : Ways Item) : Nat → Ways Item
  | 0, items => [items]
  | more + 1, items =>
    (ways items).flatMap
      (fun rest => if rest.length < items.length then upTo ways more rest else [rest]) ++ [items]

/-- As many copies as possible. -/
def endless (ways : Ways Item) (items : List Item) : List (List Item) :=
  (ways items).flatMap
    (fun rest => if _shorter : rest.length < items.length then endless ways rest else [rest]) ++
      [items]
termination_by items.length

/-- Copies that need not be there, given a bound for their number if there is one. -/
def optional (ways : Ways Item) : Option Nat → Ways Item
  | none => endless ways
  | some more => upTo ways more

/-- Copies between bounds. -/
def repeated (ways : Ways Item) (least : Nat) (most : Option Nat) : Ways Item := fun items =>
  (copies ways least items).flatMap (optional ways (most.map (· - least)))

theorem endless_eq (ways : Ways Item) (items : List Item) :
    endless ways items =
      (ways items).flatMap
        (fun rest => if rest.length < items.length then endless ways rest else [rest]) ++
          [items] := by
  rw [endless]
  simp only [dite_eq_ite]

/-! ### One more copy -/

/-- One more copy goes on with the others if it takes something, or is the last. It may also be left
out. -/
theorem mem_oneMore_iff {ways others : Ways Item} {items rest : List Item} :
    rest ∈ (ways items).flatMap
        (fun left => if left.length < items.length then others left else [left]) ++ [items] ↔
      (∃ first ∈ ways items, first.length < items.length ∧ rest ∈ others first) ∨
        (rest ∈ ways items ∧ ¬rest.length < items.length) ∨ rest = items := by
  rw [List.mem_append, List.mem_flatMap, List.mem_singleton, ← or_assoc]
  refine or_congr_left ⟨?_, ?_⟩
  · rintro ⟨first, isFirst, isRest⟩
    by_cases shorter : first.length < items.length
    · rw [if_pos shorter] at isRest
      exact Or.inl ⟨first, isFirst, shorter, isRest⟩
    · rw [if_neg shorter] at isRest
      obtain rfl := List.mem_singleton.mp isRest
      exact Or.inr ⟨isFirst, shorter⟩
  · rintro (⟨first, isFirst, shorter, isRest⟩ | ⟨isLast, notShorter⟩)
    · exact ⟨first, isFirst, by rwa [if_pos shorter]⟩
    · exact ⟨rest, isLast, by rw [if_neg notShorter]; exact List.mem_singleton_self rest⟩

theorem mem_upTo_succ_iff {ways : Ways Item} {more : Nat} {items rest : List Item} :
    rest ∈ upTo ways (more + 1) items ↔
      (∃ first ∈ ways items, first.length < items.length ∧ rest ∈ upTo ways more first) ∨
        (rest ∈ ways items ∧ ¬rest.length < items.length) ∨ rest = items := by
  rw [upTo]
  exact mem_oneMore_iff

theorem mem_endless_iff {ways : Ways Item} {items rest : List Item} :
    rest ∈ endless ways items ↔
      (∃ first ∈ ways items, first.length < items.length ∧ rest ∈ endless ways first) ∨
        (rest ∈ ways items ∧ ¬rest.length < items.length) ∨ rest = items := by
  rw [endless_eq]
  exact mem_oneMore_iff

/-! ### Copies between bounds -/

theorem repeated_zero (ways : Ways Item) (most : Option Nat) :
    repeated ways 0 most = optional ways most := by
  funext items
  show ([items]).flatMap (optional ways (most.map (· - 0))) = _
  rw [List.flatMap_singleton, show most.map (· - 0) = most by cases most <;> rfl]

/-- The first of several required copies comes before the others, which have the same number of
optional copies after them. -/
theorem repeated_succ (ways : Ways Item) (least : Nat) (most : Option Nat) (items : List Item) :
    repeated ways (least + 1) most items =
      (ways items).flatMap
        (repeated ways least (most.map fun most => least + (most - (least + 1)))) := by
  have sameOptional :
      (most.map fun most => least + (most - (least + 1))).map (· - least) =
        most.map (· - (least + 1)) := by
    cases most with
    | none => rfl
    | some most => exact congrArg some (Nat.add_sub_cancel_left ..)
  show ((ways items).flatMap (copies ways least)).flatMap _ = _
  rw [List.flatMap_assoc]
  unfold repeated
  rw [sameOptional]

/-! ### What is kept -/

/-- Whatever is left of a list of a kind is of that kind. -/
def Keeps (kind : List Item → Prop) (ways : Ways Item) : Prop :=
  ∀ items, kind items → ∀ rest ∈ ways items, kind rest

section Keeps

variable {kind : List Item → Prop} {ways : Ways Item}

theorem keeps_copies (keeps : Keeps kind ways) (count : Nat) : Keeps kind (copies ways count) := by
  induction count with
  | zero =>
    intro items isKind rest member
    exact List.mem_singleton.mp member ▸ isKind
  | succ count inductionHypothesis =>
    intro items isKind rest member
    obtain ⟨first, isFirst, isRest⟩ := List.mem_flatMap.mp member
    exact inductionHypothesis first (keeps items isKind first isFirst) rest isRest

theorem keeps_upTo (keeps : Keeps kind ways) (more : Nat) : Keeps kind (upTo ways more) := by
  induction more with
  | zero =>
    intro items isKind rest member
    exact List.mem_singleton.mp member ▸ isKind
  | succ more inductionHypothesis =>
    intro items isKind rest member
    rcases mem_upTo_succ_iff.mp member with ⟨first, isFirst, _, isRest⟩ | ⟨isLast, _⟩ | rfl
    · exact inductionHypothesis first (keeps items isKind first isFirst) rest isRest
    · exact keeps items isKind rest isLast
    · exact isKind

theorem keeps_endless (keeps : Keeps kind ways) : Keeps kind (endless ways) := by
  intro items
  induction items using endless.induct with
  | case1 items inductionHypothesis =>
    intro isKind rest member
    rcases mem_endless_iff.mp member with ⟨first, isFirst, shorter, isRest⟩ | ⟨isLast, _⟩ | rfl
    · exact inductionHypothesis first shorter (keeps items isKind first isFirst) rest isRest
    · exact keeps items isKind rest isLast
    · exact isKind

theorem keeps_optional (keeps : Keeps kind ways) (most : Option Nat) :
    Keeps kind (optional ways most) := by
  cases most with
  | none => exact keeps_endless keeps
  | some most => exact keeps_upTo keeps most

theorem keeps_repeated (keeps : Keeps kind ways) (least : Nat) (most : Option Nat) :
    Keeps kind (repeated ways least most) := by
  intro items isKind rest member
  obtain ⟨first, isFirst, isRest⟩ := List.mem_flatMap.mp member
  have firstIsKind := keeps_copies keeps least items isKind first isFirst
  exact keeps_optional keeps _ first firstIsKind rest isRest

/-- If each copy takes the same amount, so many copies take so many times the amount. -/
theorem amount_of_mem_copies {amount : List Item → Nat} {each : Nat}
    (takes : ∀ items, kind items → ∀ rest ∈ ways items,
      kind rest ∧ amount items = amount rest + each)
    (count : Nat) (items : List Item) (isKind : kind items) :
    ∀ rest ∈ copies ways count items, amount items = amount rest + count * each := by
  induction count generalizing items with
  | zero =>
    intro rest member
    rw [List.mem_singleton.mp member, Nat.zero_mul, Nat.add_zero]
  | succ count inductionHypothesis =>
    intro rest member
    obtain ⟨first, isFirst, isRest⟩ := List.mem_flatMap.mp member
    obtain ⟨firstIsKind, sameAmount⟩ := takes items isKind first isFirst
    rw [sameAmount, inductionHypothesis first firstIsKind rest isRest, Nat.succ_mul, Nat.add_assoc]

end Keeps

/-! ### What is left -/

/-- Ways leave a final part of the list. -/
def LeavesSuffix (ways : Ways Item) : Prop :=
  ∀ items, ∀ rest ∈ ways items, rest <:+ items

/-- What is left is shorter than the list or the list itself. -/
theorem LeavesSuffix.eq_of_not_lt {ways : Ways Item} (leaves : LeavesSuffix ways)
    {items rest : List Item} (member : rest ∈ ways items)
    (notShorter : ¬rest.length < items.length) : rest = items :=
  (leaves items rest member).eq_of_length_le (Nat.le_of_not_lt notShorter)

theorem exists_of_mem_single {accepts : Item → Bool} {items rest : List Item}
    (member : rest ∈ single accepts items) :
    ∃ item, accepts item = true ∧ items = item :: rest := by
  cases items with
  | nil => cases member
  | cons item others =>
    rw [single] at member
    split at member
    · rename_i accepted
      exact ⟨item, accepted, List.mem_singleton.mp member ▸ rfl⟩
    · cases member

theorem shorter_of_mem_single (accepts : Item → Bool) (items : List Item) :
    ∀ rest ∈ single accepts items, rest.length < items.length := by
  intro rest member
  obtain ⟨item, _, rfl⟩ := exists_of_mem_single member
  exact Nat.lt_succ_self _

theorem leavesSuffix_single (accepts : Item → Bool) : LeavesSuffix (single accepts) := by
  intro items rest member
  obtain ⟨item, _, rfl⟩ := exists_of_mem_single member
  exact List.suffix_cons item rest

theorem LeavesSuffix.keeps {ways : Ways Item} (leaves : LeavesSuffix ways) (items : List Item) :
    Keeps (· <:+ items) ways :=
  fun middle isSuffix rest member => (leaves middle rest member).trans isSuffix

theorem leavesSuffix_copies {ways : Ways Item} (leaves : LeavesSuffix ways) (count : Nat) :
    LeavesSuffix (copies ways count) := fun items =>
  keeps_copies (leaves.keeps items) count items List.suffix_rfl

theorem leavesSuffix_upTo {ways : Ways Item} (leaves : LeavesSuffix ways) (more : Nat) :
    LeavesSuffix (upTo ways more) := fun items =>
  keeps_upTo (leaves.keeps items) more items List.suffix_rfl

theorem leavesSuffix_endless {ways : Ways Item} (leaves : LeavesSuffix ways) :
    LeavesSuffix (endless ways) := fun items =>
  keeps_endless (leaves.keeps items) items List.suffix_rfl

theorem leavesSuffix_repeated {ways : Ways Item} (leaves : LeavesSuffix ways) (least : Nat)
    (most : Option Nat) : LeavesSuffix (repeated ways least most) := fun items =>
  keeps_repeated (leaves.keeps items) least most items List.suffix_rfl

/-! ### Optional copies -/

theorem mem_upTo_self (ways : Ways Item) (more : Nat) (items : List Item) :
    items ∈ upTo ways more items := by
  cases more with
  | zero => exact List.mem_singleton_self items
  | succ more => exact mem_upTo_succ_iff.mpr (Or.inr (Or.inr rfl))

theorem mem_endless_self (ways : Ways Item) (items : List Item) : items ∈ endless ways items :=
  mem_endless_iff.mpr (Or.inr (Or.inr rfl))

/-- Whatever so many copies leave, one more copy may leave as well. -/
theorem upTo_subset_succ (ways : Ways Item) (more : Nat) (items : List Item) :
    upTo ways more items ⊆ upTo ways (more + 1) items := by
  induction more generalizing items with
  | zero =>
    intro rest member
    rw [List.mem_singleton.mp member]
    exact mem_upTo_self ways 1 items
  | succ more inductionHypothesis =>
    intro rest member
    refine mem_upTo_succ_iff.mpr ((mem_upTo_succ_iff.mp member).imp_left ?_)
    rintro ⟨first, isFirst, shorter, isRest⟩
    exact ⟨first, isFirst, shorter, inductionHypothesis first isRest⟩

/-- What a copy and then the others leave is left by one more copy, if what the others leave is. -/
theorem flatMap_subset_oneMore {ways others : Ways Item} (leaves : LeavesSuffix ways)
    {items : List Item} {all : List (List Item)} (isOneMore : all = (ways items).flatMap
      (fun left => if left.length < items.length then others left else [left]) ++ [items])
    (othersLeave : others items ⊆ all) : (ways items).flatMap others ⊆ all := by
  intro rest member
  obtain ⟨first, isFirst, isRest⟩ := List.mem_flatMap.mp member
  by_cases shorter : first.length < items.length
  · rw [isOneMore]
    exact mem_oneMore_iff.mpr (Or.inl ⟨first, isFirst, shorter, isRest⟩)
  · rw [leaves.eq_of_not_lt isFirst shorter] at isRest
    exact othersLeave isRest

/-- A copy and then what copies up to the bound may leave is left by one more copy. -/
theorem flatMap_upTo_subset {ways : Ways Item} (leaves : LeavesSuffix ways) (more : Nat)
    (items : List Item) : (ways items).flatMap (upTo ways more) ⊆ upTo ways (more + 1) items :=
  flatMap_subset_oneMore leaves rfl (upTo_subset_succ ways more items)

/-- A copy and then what a loop may leave is left by the loop. -/
theorem flatMap_endless_subset {ways : Ways Item} (leaves : LeavesSuffix ways)
    (items : List Item) : (ways items).flatMap (endless ways) ⊆ endless ways items :=
  flatMap_subset_oneMore leaves (endless_eq ways items) (List.Subset.refl _)

/-- Where the preferred way of a loop ends, its body does not match again, if the body always takes
something. -/
theorem ways_eq_nil_of_head?_endless {ways : Ways Item}
    (takes : ∀ items, ∀ rest ∈ ways items, rest.length < items.length) {items left : List Item}
    (isFirst : (endless ways items).head? = some left) : ways left = [] := by
  induction items using endless.induct with
  | case1 items inductionHypothesis =>
    rw [endless_eq, List.head?_append, List.head?_flatMap] at isFirst
    cases bodyWays : ways items with
    | nil =>
      rw [bodyWays] at isFirst
      obtain rfl : items = left := Option.some.inj isFirst
      exact bodyWays
    | cons first others =>
      have shorter := takes items first (bodyWays ▸ List.mem_cons_self)
      refine inductionHypothesis first shorter ?_
      cases isNext : (endless ways first).head? with
      | none =>
        have someWay := mem_endless_self ways first
        rw [List.head?_eq_none_iff.mp isNext] at someWay
        cases someWay
      | some next =>
        rw [bodyWays, List.findSome?_cons, if_pos shorter, isNext] at isFirst
        exact isFirst

end Ways

end ShallowParse
