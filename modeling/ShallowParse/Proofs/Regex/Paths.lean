/-
This file proves that preference leads from a thread to what decides its first
way: along the way which an expression takes first, either a thread is reached
that waits for the character to be taken, or what comes after the expression.

Loops are where the proof needs steadiness. A copy of a body that takes nothing
leads back to its loop, so the way out of the loop must be reached by passing over
a body from which nothing else can be reached than what has failed already.
-/

import Mathlib.Logic.Relation
import ShallowParse.Proofs.Regex.Preference
import ShallowParse.Proofs.Regex.Steadiness

namespace ShallowParse

/-- Steps of preference lead from one thread to the other. -/
abbrev Path (text : List Char) : Thread → Thread → Prop :=
  Relation.ReflTransGen (Prefers text)

/-! ### Single steps -/

namespace Prefers

variable {text : List Char} {thread first second : Thread}

theorem of_only (only : thread.next = [first]) : Prefers text thread first :=
  ⟨[], [], only, List.forall_mem_nil _⟩

theorem of_first (ways : thread.next = [first, second]) : Prefers text thread first :=
  ⟨[], [second], ways, List.forall_mem_nil _⟩

/-- The second way on is preferred where the first is a dead end. -/
theorem of_second (ways : thread.next = [first, second])
    (deadEnd : ∀ other, Avoiding thread first other → other.next = [] → other.ways text = []) :
    Prefers text thread second :=
  ⟨[first], [], ways, List.forall_mem_singleton.mpr deadEnd⟩

end Prefers

/-! ### Dead ends -/

/-- From a thread without a way nothing is reached that has one. -/
theorem Avoiding.ways_eq_nil {text : List Char} {barrier start thread : Thread}
    (reached : Avoiding barrier start thread) (dead : start.ways text = []) :
    thread.ways text = [] := by
  induction reached with
  | here => exact dead
  | on _ _ isNext inductionHypothesis =>
    exact Thread.ways_eq_nil_of_next _ inductionHypothesis _ isNext

/-- The way past an expression is preferred where the expression leads nowhere. -/
theorem Prefers.past {text : List Char} {body : Regex} {thread others after : Thread}
    (ways : thread.next = [.todo body :: others, after])
    (dead : ∀ rest ∈ body.ways text, others.ways rest = []) : Prefers text thread after :=
  of_second ways fun _ reached _ =>
    reached.ways_eq_nil ((Thread.ways_todo_eq_nil_iff body others text).mpr dead)

namespace Thread

theorem ways_append (frames base : Thread) (text : List Char) :
    ways (frames ++ base) text = (frames.ways text).flatMap base.ways := by
  induction frames generalizing text with
  | nil => exact (List.flatMap_singleton _ _).symm
  | cons frame after inductionHypothesis =>
    cases frame with
    | todo regex =>
      rw [List.cons_append, ways_todo, ways_todo, List.flatMap_assoc]
      exact congrArg (fun rest => (regex.ways text).flatMap rest) (funext inductionHypothesis)
    | inFirst => exact inductionHypothesis text
    | inSecond => exact inductionHypothesis text

theorem next_append (frames base : Thread) (goesOn : frames ≠ []) :
    (frames ++ base).next = frames.next.map (· ++ base) := by
  fun_cases next frames with
  | case1 => exact absurd rfl goesOn
  | case15 body least most after =>
    simp only [List.cons_append, next, List.map_cons, List.map_nil]
  | _ => rfl

/-- A thread that waits but does not accept takes a character in each of its ways. -/
theorem shorter_of_waits (frames : Thread) (waits : frames.next = []) (goesOn : frames ≠ [])
    (text : List Char) : ∀ rest ∈ frames.ways text, rest.length < text.length := by
  have leaves (after : Thread) (middle rest : List Char) (isRest : rest ∈ after.ways middle)
      (shorter : middle.length < text.length) : rest.length < text.length :=
    Nat.lt_of_le_of_lt (leavesSuffix_ways after middle rest isRest).length_le shorter
  intro rest member
  fun_cases next frames with
  | case1 => exact absurd rfl goesOn
  | case5 wanted after =>
    obtain ⟨middle, isMiddle, isRest⟩ := List.mem_flatMap.mp member
    exact leaves after middle rest isRest (Ways.shorter_of_mem_single _ text middle isMiddle)
  | case6 refused after =>
    obtain ⟨middle, isMiddle, isRest⟩ := List.mem_flatMap.mp member
    exact leaves after middle rest isRest (Ways.shorter_of_mem_single _ text middle isMiddle)
  | case15 body least most after =>
    rw [next] at waits
    cases waits
  | _ => cases waits

end Thread

/-- From a body, all that is reached without going on from what follows it is part of the body,
and has no other ways than the body. -/
theorem Avoiding.of_body {body : Regex} {base thread : Thread}
    (reached : Avoiding base (.todo body :: base) thread) (text : List Char) :
    thread = base ∨ ∃ frames : Thread, frames ≠ [] ∧ thread = frames ++ base ∧
      frames.ways text ⊆ body.ways text := by
  induction reached with
  | here =>
    refine Or.inr ⟨[.todo body], List.cons_ne_nil _ _, rfl, ?_⟩
    intro rest member
    obtain ⟨middle, isMiddle, isRest⟩ := List.mem_flatMap.mp member
    exact List.mem_singleton.mp isRest ▸ isMiddle
  | on _ passed isNext inductionHypothesis =>
    rcases inductionHypothesis with isBase | ⟨frames, goesOn, rfl, subset⟩
    · exact absurd isBase passed
    · rw [Thread.next_append frames base goesOn, List.mem_map] at isNext
      obtain ⟨way, isWay, rfl⟩ := isNext
      cases way with
      | nil => exact Or.inl rfl
      | cons frame others =>
        exact Or.inr ⟨frame :: others, List.cons_ne_nil _ _, rfl,
          Thread.ways_within_of_next frames subset _ isWay⟩

/-- A body is a dead end if nothing that it can take goes on. -/
theorem deadEnd_of_body {text : List Char} {body : Regex} {base : Thread}
    (goesOn : base.next ≠ [])
    (dead : ∀ rest ∈ body.ways text, rest.length < text.length → base.ways rest = []) :
    ∀ other, Avoiding base (.todo body :: base) other → other.next = [] →
      other.ways text = [] := by
  intro other reached waits
  rcases reached.of_body text with rfl | ⟨frames, some, rfl, subset⟩
  · exact absurd waits goesOn
  · rw [Thread.next_append frames base some, List.map_eq_nil_iff] at waits
    rw [Thread.ways_append, List.flatMap_eq_nil_iff]
    intro rest member
    exact dead rest (subset member) (Thread.shorter_of_waits frames waits some text rest member)

/-! ### What the first way decides -/

/-- Preference leads from a thread to what decides its first way, which is by what its expression
leaves: to a waiting thread with the same first way if the expression takes something, else to
what comes after the expression. -/
structure Decides (text : List Char) (thread after : Thread) (rest : List Char) : Prop where
  taken : rest.length < text.length → ∃ target : Thread, target.next = [] ∧
    Path text thread target ∧ (target.ways text).head? = (after.ways rest).head?
  untaken : rest = text → Path text thread after

/-- What an expression leaves in the first way in which what comes after it goes on. -/
abbrev Leaves (text : List Char) (regex : Regex) (after : Thread) (rest : List Char) : Prop :=
  Ways.Picks (regex.ways text) (fun rest => after.ways rest ≠ []) rest

namespace Decides

variable {text rest : List Char} {thread way after : Thread}

theorem of_path (path : Path text thread way) (decides : Decides text way after rest) :
    Decides text thread after rest := by
  refine ⟨fun shorter => ?_, fun equal => path.trans (decides.untaken equal)⟩
  obtain ⟨target, waits, onward, sameFirst⟩ := decides.taken shorter
  exact ⟨target, waits, path.trans onward, sameFirst⟩

theorem of_prefers (prefers : Prefers text thread way) (decides : Decides text way after rest) :
    Decides text thread after rest :=
  decides.of_path (Relation.ReflTransGen.single prefers)

/-- Where an expression takes nothing, it is enough to pass through it. -/
theorem of_untaken (isText : rest = text) (path : Path text thread after) :
    Decides text thread after rest :=
  ⟨fun shorter => absurd (isText ▸ shorter) (Nat.lt_irrefl _), fun _ => path⟩

theorem to_path {later : Thread} (decides : Decides text thread after rest)
    (path : Path text after later) (same : after.ways rest = later.ways rest) :
    Decides text thread later rest := by
  refine ⟨fun shorter => ?_, fun equal => (decides.untaken equal).trans path⟩
  obtain ⟨target, waits, onward, sameFirst⟩ := decides.taken shorter
  exact ⟨target, waits, onward, by rw [sameFirst, same]⟩

end Decides

theorem goesOn_todo (regex : Regex) (after : Thread) :
    (fun rest => ∃ left ∈ regex.ways rest, after.ways left ≠ []) =
      fun rest => Thread.ways (.todo regex :: after) rest ≠ [] := by
  funext rest
  rw [ne_eq, Thread.ways_todo_eq_nil_iff]
  simp

/-- What decides the first way of two expressions is decided by the first of them or, where it
takes nothing, by the second. -/
theorem Decides.of_row {text rest : List Char} {first second : Regex} {after : Thread}
    (ofFirst : ∀ middle, Leaves text first (.todo second :: after) middle →
      Decides text (.todo first :: .todo second :: after) (.todo second :: after) middle)
    (ofSecond : Leaves text second after rest →
      Decides text (.todo second :: after) after rest)
    (picks : Ways.Picks ((first.ways text).flatMap second.ways) (fun rest => after.ways rest ≠ [])
      rest) :
    Decides text (.todo first :: .todo second :: after) after rest := by
  obtain ⟨middle, isMiddle, isRest⟩ := Ways.picks_flatMap picks
  rw [goesOn_todo] at isMiddle
  have decides := ofFirst middle isMiddle
  by_cases shorter : middle.length < text.length
  · obtain ⟨target, waits, path, sameFirst⟩ := decides.taken shorter
    refine ⟨fun _ => ⟨target, waits, path, ?_⟩, ?_⟩
    · rw [sameFirst, Thread.ways_todo, Ways.head?_flatMap_of_picks isRest]
    · intro equal
      have restLe := (second.leavesSuffix_ways middle rest isRest.mem).length_le
      rw [equal] at restLe
      exact absurd shorter (Nat.not_lt_of_le restLe)
  · have isText := first.leavesSuffix_ways.eq_of_not_lt isMiddle.mem shorter
    rw [isText] at isRest
    exact (ofSecond isRest).of_path (decides.untaken isText)

/-! ### Copies -/

section Copies

variable {text : List Char} {body : Regex}

/-- The way out of a loop is preferred once nothing that its body takes goes on. -/
theorem path_star {after : Thread}
    (dead : ∀ rest ∈ body.ways text, rest.length < text.length →
      Thread.ways (.todo (.star body) :: after) rest = []) :
    Path text (.todo (.star body) :: after) after :=
  Relation.ReflTransGen.single
    (Prefers.of_second rfl (deadEnd_of_body (List.cons_ne_nil _ _) dead))

/-- A body that cannot be passed over takes something in each of its ways. -/
theorem shorter_of_not_mem (noEmpty : text ∉ body.ways text) {rest : List Char}
    (isRest : rest ∈ body.ways text) : rest.length < text.length := by
  by_contra notShorter
  exact noEmpty (body.leavesSuffix_ways.eq_of_not_lt isRest notShorter ▸ isRest)

variable (ofBody : ∀ after rest, Leaves text body after rest →
  Decides text (.todo body :: after) after rest)

include ofBody

/-- A copy that takes something is preferred to what comes after the copies. -/
theorem exists_target_of_copy {thread after : Thread} (others : Regex) {rest : List Char}
    (ways : thread.next = [.todo body :: .todo others :: after, after])
    (emptyLast : Ways.EmptyLast body.ways)
    (picks : Ways.Picks
      ((body.ways text).flatMap
        (fun rest => if rest.length < text.length then others.ways rest else [rest]) ++ [text])
      (fun rest => after.ways rest ≠ []) rest)
    (shorter : rest.length < text.length) :
    ∃ target : Thread, target.next = [] ∧ Path text thread target ∧
      (target.ways text).head? = (after.ways rest).head? := by
  rcases Ways.picks_append picks with inCopy | ⟨_, isText⟩
  · obtain ⟨middle, isMiddle, isRest⟩ := Ways.picks_flatMap inCopy
    have middleShorter : middle.length < text.length := by
      by_contra notShorter
      rw [if_neg notShorter] at isRest
      exact notShorter (List.mem_singleton.mp isRest.mem ▸ shorter)
    rw [if_pos middleShorter] at isRest
    have leaves : Leaves text body (.todo others :: after) middle := by
      obtain ⟨before, later, parted, passed, goes⟩ := isMiddle
      have takeSomething := emptyLast.shorter_of_passed parted middleShorter
        fun member => passed middle member goes
      rw [Leaves, ← goesOn_todo]
      refine ⟨before, later, parted, fun other member goesOther => passed other member ?_, ?_⟩
      · obtain ⟨left, isLeft, goesLeft⟩ := goesOther
        exact ⟨left, by rwa [if_pos (takeSomething other member)], goesLeft⟩
      · rwa [if_pos middleShorter] at goes
    obtain ⟨target, waits, path, sameFirst⟩ := (ofBody _ middle leaves).taken middleShorter
    refine ⟨target, waits, path.head (Prefers.of_first ways), ?_⟩
    rw [sameFirst, Thread.ways_todo, Ways.head?_flatMap_of_picks isRest]
  · rw [List.mem_singleton.mp isText.mem] at shorter
    exact absurd shorter (Nat.lt_irrefl _)

/-- Where nothing that a body takes goes on with what comes after the body, but nothing taken goes
on, the body is passed through. -/
theorem path_of_untaken {after : Thread} (member : text ∈ body.ways text)
    (alive : after.ways text ≠ [])
    (dead : ∀ rest ∈ body.ways text, rest.length < text.length → after.ways rest = []) :
    Path text (.todo body :: after) after := by
  obtain ⟨rest, picks⟩ : ∃ rest, Leaves text body after rest :=
    Ways.exists_picks ⟨text, member, alive⟩
  have isText : rest = text := by
    refine body.leavesSuffix_ways.eq_of_not_lt picks.mem fun shorter => ?_
    obtain ⟨_, _, _, _, goes⟩ := id picks
    exact goes (dead rest picks.mem shorter)
  exact (ofBody after rest picks).untaken isText

theorem path_repeated_none {after : Thread} (alive : after.ways text ≠ [])
    (dead : ∀ rest ∈ body.ways text, rest.length < text.length →
      Thread.ways (.todo (.star body) :: after) rest = []) :
    Path text (.todo (.repeated body 0 none) :: after) after := by
  by_cases member : text ∈ body.ways text
  · have isLeft : text ∈ (Regex.star body).ways text := Ways.mem_endless_self _ _
    have path := path_of_untaken ofBody member (Thread.ways_todo_ne_nil isLeft alive) dead
    exact (path.head (Prefers.of_first rfl)).trans (path_star dead)
  · exact Relation.ReflTransGen.single (Prefers.past rfl fun rest isRest =>
      dead rest isRest (shorter_of_not_mem member isRest))

theorem path_upTo {after : Thread} (alive : after.ways text ≠ []) (more : Nat)
    (dead : ∀ rest ∈ Ways.upTo body.ways more text, rest.length < text.length →
      after.ways rest = []) :
    Path text (.todo (.repeated body 0 (some more)) :: after) after := by
  induction more with
  | zero => exact Relation.ReflTransGen.single (Prefers.of_only rfl)
  | succ more inductionHypothesis =>
    have sameWays : (Regex.repeated body 0 (some more)).ways = Ways.upTo body.ways more :=
      Ways.repeated_zero body.ways (some more)
    have deadRest : ∀ rest ∈ body.ways text, rest.length < text.length →
        Thread.ways (.todo (.repeated body 0 (some more)) :: after) rest = [] := by
      intro rest isRest shorter
      rw [Thread.ways_todo_eq_nil_iff, sameWays]
      intro left isLeft
      have leftLe := (Ways.leavesSuffix_upTo body.leavesSuffix_ways more rest left isLeft).length_le
      refine dead left ?_ (Nat.lt_of_le_of_lt leftLe shorter)
      exact Ways.flatMap_upTo_subset body.leavesSuffix_ways more text
        (List.mem_flatMap.mpr ⟨rest, isRest, isLeft⟩)
    by_cases member : text ∈ body.ways text
    · have isLeft : text ∈ (Regex.repeated body 0 (some more)).ways text :=
        sameWays ▸ Ways.mem_upTo_self _ _ _
      have path := path_of_untaken ofBody member (Thread.ways_todo_ne_nil isLeft alive) deadRest
      refine (path.head (Prefers.of_first rfl)).trans (inductionHypothesis fun rest isRest => ?_)
      exact dead rest (Ways.upTo_subset_succ body.ways more text isRest)
    · exact Relation.ReflTransGen.single (Prefers.past rfl fun rest isRest =>
        deadRest rest isRest (shorter_of_not_mem member isRest))

/-! ### Repetitions -/

omit ofBody in
/-- If a loop is left at once, nothing that its body takes goes on. -/
theorem dead_of_untaken {after : Thread} (emptyLast : Ways.EmptyLast body.ways)
    (picks : Leaves text (.star body) after text) :
    ∀ rest ∈ body.ways text, rest.length < text.length →
      Thread.ways (.todo (.star body) :: after) rest = [] := by
  intro rest isRest shorter
  rw [Thread.ways_todo_eq_nil_iff]
  intro left isLeft
  have lasts := Ways.emptyLast_optional emptyLast body.leavesSuffix_ways none
  have leftLe := (Ways.leavesSuffix_endless body.leavesSuffix_ways rest left isLeft).length_le
  have member := Ways.flatMap_endless_subset body.leavesSuffix_ways text
    (List.mem_flatMap.mpr ⟨rest, isRest, isLeft⟩)
  exact Classical.not_not.mp (lasts.not_goesOn_of_picks picks member
    (Nat.lt_of_le_of_lt leftLe shorter))

theorem decides_star {after : Thread} {rest : List Char} (emptyLast : Ways.EmptyLast body.ways)
    (picks : Leaves text (.star body) after rest) :
    Decides text (.todo (.star body) :: after) after rest := by
  refine ⟨?_, ?_⟩
  · rw [Leaves, Regex.ways, Ways.endless_eq] at picks
    exact exists_target_of_copy ofBody (.star body) rfl emptyLast picks
  · rintro rfl
    exact path_star (dead_of_untaken emptyLast picks)

theorem decides_atLeast (least : Nat) {after : Thread} {rest : List Char}
    (emptyLast : Ways.EmptyLast body.ways)
    (picks : Leaves text (.repeated body least none) after rest) :
    Decides text (.todo (.repeated body least none) :: after) after rest := by
  match least with
  | 0 =>
    have isStar : (Regex.repeated body 0 none).ways = (Regex.star body).ways :=
      Ways.repeated_zero body.ways none
    rw [Leaves, isStar] at picks
    refine ⟨?_, ?_⟩
    · rw [Regex.ways, Ways.endless_eq] at picks
      exact exists_target_of_copy ofBody (.star body) rfl emptyLast picks
    · rintro rfl
      obtain ⟨_, _, _, _, alive⟩ := id picks
      exact path_repeated_none ofBody alive (dead_of_untaken emptyLast picks)
  | 1 =>
    rw [Leaves, Regex.ways, Ways.repeated_succ, Option.map_none, Ways.repeated_zero] at picks
    exact (Decides.of_row (ofBody _) (decides_star ofBody emptyLast) picks).of_prefers
      (Prefers.of_only rfl)
  | least + 2 =>
    rw [Leaves, Regex.ways, Ways.repeated_succ] at picks
    exact (Decides.of_row (ofBody _) (decides_atLeast (least + 1) emptyLast) picks).of_prefers
      (Prefers.of_only rfl)

/-- A single optional copy may also take nothing before it takes something. -/
theorem decides_single {after : Thread} {rest : List Char}
    (picks : Leaves text (.repeated body 0 (some 1)) after rest) :
    Decides text (.todo (.repeated body 0 (some 1)) :: after) after rest := by
  have same : (Regex.repeated body 0 (some 1)).ways text = body.ways text ++ [text] := by
    rw [Regex.ways, Ways.repeated_zero]
    show (body.ways text).flatMap _ ++ [text] = _
    simp [Ways.upTo]
  have afterNone (rest : List Char) :
      Thread.ways (.todo (.repeated body 0 (some 0)) :: after) rest = after.ways rest := by
    rw [Thread.ways_todo, Regex.ways, Ways.repeated_zero]
    exact List.flatMap_singleton _ _
  rw [Leaves, same] at picks
  rcases Ways.picks_append picks with inCopy | ⟨dead, isText⟩
  · have leaves : Leaves text body (.todo (.repeated body 0 (some 0)) :: after) rest := by
      rw [Leaves, funext afterNone]
      exact inCopy
    refine Decides.of_prefers (Prefers.of_first rfl) ((ofBody _ rest leaves).to_path ?_ ?_)
    · exact Relation.ReflTransGen.single (Prefers.of_only rfl)
    · exact afterNone rest
  · refine Decides.of_untaken (List.mem_singleton.mp isText.mem) ?_
    refine Relation.ReflTransGen.single (Prefers.past rfl fun left isLeft => ?_)
    rw [afterNone]
    exact Classical.not_not.mp (dead left isLeft)

theorem decides_upTo (most : Nat) {after : Thread} {rest : List Char}
    (steady : most ≤ 1 ∨ Ways.EmptyLast body.ways)
    (picks : Leaves text (.repeated body 0 (some most)) after rest) :
    Decides text (.todo (.repeated body 0 (some most)) :: after) after rest := by
  match most, steady with
  | 0, _ =>
    rw [Leaves, Regex.ways, Ways.repeated_zero] at picks
    refine Decides.of_untaken (List.mem_singleton.mp picks.mem) ?_
    exact Relation.ReflTransGen.single (Prefers.of_only rfl)
  | 1, _ => exact decides_single ofBody picks
  | more + 2, Or.inl single => omega
  | more + 2, Or.inr emptyLast =>
    have sameWays : (Regex.repeated body 0 (some (more + 1))).ways =
        Ways.upTo body.ways (more + 1) :=
      Ways.repeated_zero body.ways (some (more + 1))
    rw [Leaves, Regex.ways, Ways.repeated_zero] at picks
    refine ⟨?_, ?_⟩
    · have copies := picks
      rw [Ways.optional, Ways.upTo, ← sameWays] at copies
      exact exists_target_of_copy ofBody _ rfl emptyLast copies
    · rintro rfl
      obtain ⟨_, _, _, _, alive⟩ := id picks
      have lasts := Ways.emptyLast_optional emptyLast body.leavesSuffix_ways (some (more + 2))
      refine path_upTo ofBody alive (more + 2) fun left isLeft shorter => ?_
      exact Classical.not_not.mp (lasts.not_goesOn_of_picks picks isLeft shorter)

theorem decides_between (least most : Nat) {after : Thread} {rest : List Char}
    (steady : most ≤ least + 1 ∨ Ways.EmptyLast body.ways)
    (picks : Leaves text (.repeated body least (some most)) after rest) :
    Decides text (.todo (.repeated body least (some most)) :: after) after rest := by
  induction least generalizing most rest with
  | zero => exact decides_upTo ofBody most steady picks
  | succ least inductionHypothesis =>
    rw [Leaves, Regex.ways, Ways.repeated_succ] at picks
    have steadyRest : least + (most - (least + 1)) ≤ least + 1 ∨ Ways.EmptyLast body.ways :=
      steady.imp_left fun bounded => by omega
    refine Decides.of_prefers (Prefers.of_only (by rw [Thread.next])) ?_
    exact Decides.of_row (ofBody _) (inductionHypothesis _ steadyRest) picks

end Copies

/-- A thread that waits for the character its expression takes decides its first way. -/
theorem decides_of_waits {text rest : List Char} (regex : Regex) (after : Thread)
    (takes : regex.isNullable = false) (waits : Thread.next (.todo regex :: after) = [])
    (picks : Leaves text regex after rest) :
    Decides text (.todo regex :: after) after rest := by
  refine ⟨fun _ => ⟨_, waits, Relation.ReflTransGen.refl, ?_⟩, fun isText => ?_⟩
  · rw [Thread.ways_todo, Ways.head?_flatMap_of_picks picks]
  · exact absurd (regex.shorter_of_mem_ways takes text rest picks.mem) (isText ▸ Nat.lt_irrefl _)

/-- Preference leads from a steady expression to what decides its first way. -/
theorem decides (regex : Regex) (steady : regex.isSteady = true) (text : List Char)
    (after : Thread) (rest : List Char) (picks : Leaves text regex after rest) :
    Decides text (.todo regex :: after) after rest := by
  induction regex generalizing after rest with
  | empty =>
    refine Decides.of_untaken (List.mem_singleton.mp picks.mem) ?_
    exact Relation.ReflTransGen.single (Prefers.of_only rfl)
  | char wanted => exact decides_of_waits _ after rfl rfl picks
  | otherThan refused => exact decides_of_waits _ after rfl rfl picks
  | seq first second ofFirst ofSecond =>
    obtain ⟨steadyFirst, steadySecond⟩ := Bool.and_eq_true_iff.mp steady
    refine Decides.of_prefers (Prefers.of_only rfl) ?_
    exact Decides.of_row (ofFirst steadyFirst _) (ofSecond steadySecond after rest) picks
  | alt first second ofFirst ofSecond =>
    obtain ⟨steadyFirst, steadySecond⟩ := Bool.and_eq_true_iff.mp steady
    rcases Ways.picks_append picks with inFirst | ⟨dead, inSecond⟩
    · refine Decides.of_prefers (Prefers.of_first rfl) ?_
      refine (ofFirst steadyFirst (.inFirst :: after) rest inFirst).to_path ?_ rfl
      exact Relation.ReflTransGen.single (Prefers.of_only rfl)
    · refine Decides.of_prefers (Prefers.past rfl fun left isLeft => ?_) ?_
      · exact Classical.not_not.mp (dead left isLeft)
      · refine (ofSecond steadySecond (.inSecond :: after) rest inSecond).to_path ?_ rfl
        exact Relation.ReflTransGen.single (Prefers.of_only rfl)
  | star body ofBody =>
    obtain ⟨steadyBody, emptyLast⟩ := Bool.and_eq_true_iff.mp steady
    exact decides_star (ofBody steadyBody) (body.emptyLast_ways emptyLast) picks
  | repeated body least most ofBody =>
    obtain ⟨steadyBody, bounded⟩ := Bool.and_eq_true_iff.mp steady
    cases most with
    | none => exact decides_atLeast (ofBody steadyBody) least (body.emptyLast_ways bounded) picks
    | some most =>
      refine decides_between (ofBody steadyBody) least most ?_ picks
      exact (Bool.or_eq_true_iff.mp bounded).imp of_decide_eq_true body.emptyLast_ways

end ShallowParse
