/-
This file looks at the unfolding of threads as a search through a graph, whose
nodes are threads and whose edges lead from a thread to the ways on from it that
take no character. Unfolding goes through the graph depth first and never goes on
from a thread twice.

Whatever holds of each step through the graph holds of unfolding. A first fact of
this kind is that unfolding meets only what can be reached.
-/

import ShallowParse.Proofs.Regex.Ways
import ShallowParse.Regex.Search

namespace ShallowParse

/-! ### The graph -/

namespace Thread

/-- The ways on from a thread that take no character, in order of preference. A thread without any
waits for a character or accepts. -/
def next : Thread → List Thread
  | [] => []
  | .inFirst :: after => [after]
  | .inSecond :: after => [after]
  | .todo .empty :: after => [after]
  | .todo (.char _) :: _ => []
  | .todo (.otherThan _) :: _ => []
  | .todo (.seq first second) :: after => [.todo first :: .todo second :: after]
  | .todo (.alt first second) :: after =>
    [.todo first :: .inFirst :: after, .todo second :: .inSecond :: after]
  | .todo (.star body) :: after => [.todo body :: .todo (.star body) :: after, after]
  | .todo (.repeated body 0 none) :: after => [.todo body :: .todo (.star body) :: after, after]
  | .todo (.repeated body 1 none) :: after => [.todo body :: .todo (.star body) :: after]
  | .todo (.repeated body (least + 2) none) :: after =>
    [.todo body :: .todo (.repeated body (least + 1) none) :: after]
  | .todo (.repeated _ 0 (some 0)) :: after => [after]
  | .todo (.repeated body 0 (some (more + 1))) :: after =>
    [.todo body :: .todo (.repeated body 0 (some more)) :: after, after]
  | .todo (.repeated body (least + 1) (some most)) :: after =>
    [.todo body :: .todo (.repeated body least (some (least + (most - (least + 1))))) :: after]

/-- What two expressions in turn leave is left by one that leaves as much. -/
theorem ways_inTurn_subset {whole first second : Regex} {text : List Char}
    (enters : (first.ways text).flatMap second.ways ⊆ whole.ways text) (after : Thread) :
    ways (.todo first :: .todo second :: after) text ⊆ ways (.todo whole :: after) text := by
  rw [ways_todo_todo]
  refine ways_todo_subset ?_ after
  exact enters

/-- An expression that is a row of two goes on with the first and the second after it. -/
theorem ways_row_subset {row first second : Regex} {text : List Char}
    (isRow : row.ways text = (first.ways text).flatMap second.ways) (after : Thread) :
    ∀ way ∈ [.todo first :: .todo second :: after],
      ways way text ⊆ ways (.todo row :: after) text := by
  refine List.forall_mem_singleton.mpr (ways_inTurn_subset ?_ after)
  rw [isRow]
  exact List.Subset.refl _

/-- A loop goes on with a copy and the loop after it, or ends. -/
theorem ways_loop_subset {loop body again : Regex} {text : List Char}
    (enters : (body.ways text).flatMap again.ways ⊆ loop.ways text) (ends : text ∈ loop.ways text)
    (after : Thread) : ∀ way ∈ [.todo body :: .todo again :: after, after],
      ways way text ⊆ ways (.todo loop :: after) text :=
  List.forall_mem_cons.mpr ⟨ways_inTurn_subset enters after,
    List.forall_mem_singleton.mpr (ways_after_subset ends after)⟩

/-- What is left after a way on is left by the thread itself. -/
theorem ways_next_subset (thread : Thread) (text : List Char) (way : Thread)
    (isNext : way ∈ thread.next) : way.ways text ⊆ thread.ways text := by
  fun_cases next thread with
  | case1 => cases isNext
  | case2 after => exact List.mem_singleton.mp isNext ▸ List.Subset.refl _
  | case3 after => exact List.mem_singleton.mp isNext ▸ List.Subset.refl _
  | case4 after =>
    rw [List.mem_singleton.mp isNext]
    exact ways_after_subset (List.mem_singleton_self text) after
  | case5 => cases isNext
  | case6 => cases isNext
  | case7 first second after => exact ways_row_subset rfl after way isNext
  | case8 first second after =>
    rcases List.mem_cons.mp isNext with rfl | isSecond
    · exact ways_todo_subset (List.subset_append_left _ _) after
    · rw [List.mem_singleton.mp isSecond]
      exact ways_todo_subset (List.subset_append_right _ _) after
  | case9 body after =>
    refine ways_loop_subset ?_ ?_ after way isNext
    · exact Ways.flatMap_endless_subset body.leavesSuffix_ways text
    · exact Ways.mem_endless_self _ _
  | case10 body after =>
    have sameWays : (Regex.repeated body 0 none).ways = (Regex.star body).ways :=
      Ways.repeated_zero body.ways none
    refine ways_loop_subset ?_ ?_ after way isNext <;> rw [sameWays]
    · exact Ways.flatMap_endless_subset body.leavesSuffix_ways text
    · exact Ways.mem_endless_self _ _
  | case11 body after =>
    refine ways_row_subset ?_ after way isNext
    refine (Ways.repeated_succ body.ways 0 none text).trans ?_
    rw [Option.map_none, Ways.repeated_zero]
    rfl
  | case12 body least after =>
    refine ways_row_subset ?_ after way isNext
    exact Ways.repeated_succ body.ways (least + 1) none text
  | case13 body after =>
    rw [List.mem_singleton.mp isNext]
    refine ways_after_subset ?_ after
    rw [Regex.ways, Ways.repeated_zero]
    exact Ways.mem_upTo_self _ _ _
  | case14 body more after =>
    refine ways_loop_subset ?_ ?_ after way isNext
    · rw [Regex.ways, Regex.ways, Ways.repeated_zero, Ways.repeated_zero]
      exact Ways.flatMap_upTo_subset body.leavesSuffix_ways more text
    · rw [Regex.ways, Ways.repeated_zero]
      exact Ways.mem_upTo_self _ _ _
  | case15 body least most after =>
    rw [next] at isNext
    refine ways_row_subset ?_ after way isNext
    exact Ways.repeated_succ body.ways least (some most) text

/-- No way on from a thread can leave anything that the thread cannot. -/
theorem ways_within_of_next {text : List Char} {rests : List (List Char)} (thread : Thread)
    (within : thread.ways text ⊆ rests) : ∀ way ∈ thread.next, way.ways text ⊆ rests :=
  fun way isNext => List.Subset.trans (ways_next_subset thread text way isNext) within

/-- No way on from a thread can match where the thread cannot. -/
theorem ways_eq_nil_of_next {text : List Char} (thread : Thread) (dead : thread.ways text = []) :
    ∀ way ∈ thread.next, way.ways text = [] :=
  fun way isNext => List.subset_nil.mp (dead ▸ ways_next_subset thread text way isNext)

end Thread

/-! ### Going through the graph -/

namespace Frontier

/-- The frontier after a thread is met for the first time. -/
def met (frontier : Frontier) (thread : Thread) : Frontier :=
  { frontier with seen := frontier.seen.insert thread }

theorem contains_met (frontier : Frontier) (added thread : Thread) :
    (frontier.met added).seen.contains thread ↔
      thread = added ∨ frontier.seen.contains thread :=
  ThreadSet.contains_insert _ _ _

theorem visit_of_seen (frontier : Frontier) (thread : Thread) (goOn : Frontier → Frontier)
    (seen : frontier.seen.contains thread = true) : frontier.visit thread goOn = frontier :=
  if_pos seen

theorem visit_of_unseen (frontier : Frontier) (thread : Thread) (goOn : Frontier → Frontier)
    (unseen : ¬frontier.seen.contains thread = true) :
    frontier.visit thread goOn = goOn (frontier.met thread) :=
  if_neg unseen

end Frontier

open Frontier

/-- Something that holds of each way to go on from a thread, given a frontier that was there before,
if the way goes through the graph: waiting threads are noted, and branching ones are visited before
the ways on from them are tried. -/
structure GoesThrough (holds : Thread → (Frontier → Frontier) → Frontier → Prop) : Prop where
  await : ∀ {thread} start, thread.next = [] → holds thread (Frontier.await thread) start
  only : ∀ {thread way goOn start}, holds way goOn start → thread.next = [way] →
    holds thread goOn start
  visit : ∀ {thread first second goOnFirst goOnSecond start},
    holds first goOnFirst (start.met thread) → holds second goOnSecond start →
      thread.next = [first, second] →
        holds thread
          (fun frontier => frontier.visit thread fun visited => goOnSecond (goOnFirst visited)) start
  stop : ∀ {thread start}, start.seen.contains thread → holds thread id start
  later : ∀ {thread goOn start next}, holds thread goOn start →
    (∀ other, start.seen.contains other → next.seen.contains other) → holds thread goOn next

namespace GoesThrough

variable {holds : Thread → (Frontier → Frontier) → Frontier → Prop} (goes : GoesThrough holds)

include goes

theorem of_met {thread : Thread} {goOn : Frontier → Frontier} {start : Frontier}
    (ofStart : holds thread goOn start) (other : Thread) : holds thread goOn (start.met other) :=
  goes.later ofStart fun _ isMet => (contains_met _ _ _).mpr (Or.inr isMet)

section Bodies

variable {body : Regex}
  (ofBody : ∀ after goOn start, holds after goOn start →
    holds (.todo body :: after) (body.unfold after goOn) start)

include ofBody

theorem unfoldStar (after : Thread) (goOn : Frontier → Frontier) (start : Frontier)
    (ofAfter : holds after goOn start) :
    holds (.todo (.star body) :: after) (Regex.unfoldStar body body.unfold after goOn) start := by
  refine goes.visit (ofBody _ _ _ (goes.stop ?_)) ofAfter rfl
  exact (contains_met _ _ _).mpr (Or.inl rfl)

theorem unfoldAtLeast (least : Nat) (after : Thread) (goOn : Frontier → Frontier)
    (start : Frontier) (ofAfter : holds after goOn start) :
    holds (.todo (.repeated body least none) :: after)
      (Regex.unfoldAtLeast body body.unfold least after goOn) start := by
  have ofStar := goes.unfoldStar ofBody after goOn start ofAfter
  match least with
  | 0 => exact goes.visit (ofBody _ _ _ (goes.of_met ofStar _)) ofAfter rfl
  | 1 => exact goes.only (ofBody _ _ _ ofStar) rfl
  | least + 2 =>
    exact goes.only (ofBody _ _ _ (unfoldAtLeast (least + 1) after goOn start ofAfter)) rfl

theorem unfoldUpTo (more : Nat) (after : Thread) (goOn : Frontier → Frontier) (start : Frontier)
    (ofAfter : holds after goOn start) :
    holds (.todo (.repeated body 0 (some more)) :: after)
      (Regex.unfoldUpTo body body.unfold more after goOn) start := by
  induction more with
  | zero => exact goes.only ofAfter rfl
  | succ more inductionHypothesis =>
    exact goes.visit (ofBody _ _ _ (goes.of_met inductionHypothesis _)) ofAfter rfl

theorem unfoldBetween (least most : Nat) (after : Thread) (goOn : Frontier → Frontier)
    (start : Frontier) (ofAfter : holds after goOn start) :
    holds (.todo (.repeated body least (some most)) :: after)
      (Regex.unfoldBetween body body.unfold (most - least) least after goOn) start := by
  induction least generalizing most with
  | zero => exact goes.unfoldUpTo ofBody most after goOn start ofAfter
  | succ least inductionHypothesis =>
    have ofRest := inductionHypothesis (least + (most - (least + 1)))
    rw [Nat.add_sub_cancel_left] at ofRest
    exact goes.only (ofBody _ _ _ ofRest) (by rw [Thread.next])

end Bodies

/-- Unfolding an expression goes through the graph. -/
theorem unfold (regex : Regex) (after : Thread) (goOn : Frontier → Frontier) (start : Frontier)
    (ofAfter : holds after goOn start) :
    holds (.todo regex :: after) (regex.unfold after goOn) start := by
  induction regex generalizing after goOn start with
  | empty => exact goes.only ofAfter rfl
  | char wanted => exact goes.await start rfl
  | otherThan refused => exact goes.await start rfl
  | seq first second ofFirst ofSecond =>
    exact goes.only (ofFirst _ _ _ (ofSecond _ _ _ ofAfter)) rfl
  | alt first second ofFirst ofSecond =>
    exact goes.visit (ofFirst _ _ _ (goes.only (goes.of_met ofAfter _) rfl))
      (ofSecond _ _ _ (goes.only ofAfter rfl)) rfl
  | star body ofBody => exact goes.unfoldStar ofBody after goOn start ofAfter
  | repeated body least most ofBody =>
    cases most with
    | none => exact goes.unfoldAtLeast ofBody least after goOn start ofAfter
    | some most => exact goes.unfoldBetween ofBody least most after goOn start ofAfter

theorem unfold_thread (thread : Thread) (start : Frontier) :
    holds thread thread.unfold start := by
  induction thread with
  | nil => exact goes.await start rfl
  | cons frame after inductionHypothesis =>
    cases frame with
    | todo regex => exact goes.unfold regex after _ start inductionHypothesis
    | inFirst => exact goes.only inductionHypothesis rfl
    | inSecond => exact goes.only inductionHypothesis rfl

end GoesThrough

/-! ### What unfolding meets -/

/-- Threads of a kind that is kept by every way on but those from the threads behind a barrier,
which all offer two ways on. -/
structure Region (inside barrier : Thread → Prop) : Prop where
  closed : ∀ thread, inside thread → ¬barrier thread → ∀ way ∈ thread.next, inside way
  branches : ∀ thread, barrier thread → thread.next.length = 2

/-- The only way on from a thread of a region is in the region. -/
theorem Region.inside_of_single {inside barrier : Thread → Prop} (region : Region inside barrier)
    {thread way : Thread} (isInside : inside thread) (only : thread.next = [way]) : inside way := by
  refine region.closed thread isInside (fun isBarrier => ?_) way
    (only ▸ List.mem_singleton_self way)
  have two := region.branches thread isBarrier
  rw [only] at two
  cases two

namespace Frontier

/-- One frontier has come from another by adding threads of one kind. -/
structure Grows (inside : Thread → Prop) (before after : Frontier) : Prop where
  seen : ∀ thread, after.seen.contains thread → before.seen.contains thread ∨ inside thread
  kept : ∀ thread, before.seen.contains thread → after.seen.contains thread
  waiting : ∃ added, after.waiting = added ++ before.waiting ∧
    ∀ thread ∈ added, inside thread ∧ thread.next = []

variable {inside : Thread → Prop}

theorem Grows.refl (frontier : Frontier) : Grows inside frontier frontier :=
  ⟨fun _ => Or.inl, fun _ => id, [], rfl, List.forall_mem_nil _⟩

theorem Grows.trans {first second third : Frontier} (before : Grows inside first second)
    (after : Grows inside second third) : Grows inside first third := by
  obtain ⟨added, isAdded, areInside⟩ := before.waiting
  obtain ⟨more, isMore, areMoreInside⟩ := after.waiting
  refine ⟨?_, fun thread met => after.kept thread (before.kept thread met), more ++ added, ?_, ?_⟩
  · intro thread met
    rcases after.seen thread met with met | isInside
    · exact before.seen thread met
    · exact Or.inr isInside
  · rw [isMore, isAdded, List.append_assoc]
  · exact List.forall_mem_append.mpr ⟨areMoreInside, areInside⟩

theorem grows_met (frontier : Frontier) (thread : Thread) (isInside : inside thread) :
    Grows inside frontier (frontier.met thread) := by
  refine ⟨?_, ?_, [], rfl, List.forall_mem_nil _⟩
  · intro other isMet
    rcases (contains_met _ _ _).mp isMet with rfl | before
    · exact Or.inr isInside
    · exact Or.inl before
  · exact fun other before => (contains_met _ _ _).mpr (Or.inr before)

theorem grows_visit (frontier : Frontier) (thread : Thread) (goOn : Frontier → Frontier)
    (isInside : inside thread)
    (grows : ¬frontier.seen.contains thread = true →
      Grows inside (frontier.met thread) (goOn (frontier.met thread))) :
    Grows inside frontier (frontier.visit thread goOn) := by
  by_cases seen : frontier.seen.contains thread = true
  · rw [visit_of_seen _ _ _ seen]
    exact Grows.refl frontier
  · rw [visit_of_unseen _ _ _ seen]
    exact (grows_met frontier thread isInside).trans (grows seen)

/-- A thread that waits is met and noted. -/
theorem grows_await (frontier : Frontier) (thread : Thread) (isInside : inside thread)
    (waits : thread.next = []) : Grows inside frontier (frontier.await thread) := by
  refine grows_visit frontier thread _ isInside fun _ => ?_
  exact ⟨fun _ => Or.inl, fun _ => id, [thread], rfl, List.forall_mem_singleton.mpr
    ⟨isInside, waits⟩⟩

end Frontier

/-- A way to go on from a thread meets only what can be reached from the thread. -/
def Continues (after : Thread) (goOn : Frontier → Frontier) : Prop :=
  ∀ (inside barrier : Thread → Prop), Region inside barrier → inside after →
    ∀ frontier : Frontier, (∀ thread, barrier thread → frontier.seen.contains thread) →
      Grows inside frontier (goOn frontier)

theorem continues_id (after : Thread) : Continues after id :=
  fun _ _ _ _ frontier _ => Grows.refl frontier

/-- Going on from a thread with one way on is going on from there. -/
theorem Continues.of_single {thread way : Thread} {goOn : Frontier → Frontier}
    (continues : Continues way goOn) (only : thread.next = [way]) : Continues thread goOn :=
  fun inside barrier region isInside =>
    continues inside barrier region (region.inside_of_single isInside only)

/-- Going on from a thread with two ways on is visiting it and going on from both. -/
theorem Continues.of_visit {thread first second : Thread}
    {goOnFirst goOnSecond : Frontier → Frontier} (ofFirst : Continues first goOnFirst)
    (ofSecond : Continues second goOnSecond) (ways : thread.next = [first, second]) :
    Continues thread fun frontier =>
      frontier.visit thread fun visited => goOnSecond (goOnFirst visited) := by
  intro inside barrier region isInside frontier barred
  refine grows_visit frontier thread _ isInside fun unseen => ?_
  have onward := region.closed thread isInside (fun isBarrier => unseen (barred thread isBarrier))
  rw [ways] at onward
  have barredMet : ∀ other, barrier other → (frontier.met thread).seen.contains other :=
    fun other isBarrier => (contains_met _ _ _).mpr (Or.inr (barred other isBarrier))
  have first := ofFirst inside barrier region (onward _ List.mem_cons_self) _ barredMet
  refine first.trans (ofSecond inside barrier region (onward _ (by simp)) _ ?_)
  exact fun other isBarrier => first.kept other (barredMet other isBarrier)

theorem goesThrough_continues : GoesThrough fun after goOn _ => Continues after goOn where
  await _ waits := fun _ _ _ isInside frontier _ => grows_await frontier _ isInside waits
  only := Continues.of_single
  visit := Continues.of_visit
  stop _ := continues_id _
  later continues _ := continues

theorem continues_unfold_thread (thread : Thread) : Continues thread thread.unfold :=
  goesThrough_continues.unfold_thread thread .empty

end ShallowParse
