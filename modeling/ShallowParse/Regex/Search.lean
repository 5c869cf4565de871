/-
This file finds the preferred match of a regular expression at the beginning of
a text, in time that grows with the length of the text and not with the number
of ways to match it.

A thread is what an expression has still to match. All threads go through the
text together, in order of preference. Before each character they are unfolded
until each waits for a character or has nothing left to match. A thread that was
met before at the same place of the text is dropped: whatever it could match is
already covered by the first one, which is preferred. This also ends loops that
take no character.

An accepting thread ends the threads after it, since they are less preferred;
those before it go on, and if one of them accepts later, its match counts.
-/

import ShallowParse.Regex.Thread

namespace ShallowParse

/-! ### Frontiers -/

/-- The threads met at one place of the text, and those of them that wait for a character or
accept, last first. -/
structure Frontier where
  seen : ThreadSet
  waiting : List Thread

namespace Frontier

def empty : Frontier := ⟨.empty, []⟩

/-- Goes on from a thread unless it was met before. -/
def visit (frontier : Frontier) (thread : Thread) (goOn : Frontier → Frontier) : Frontier :=
  if frontier.seen.contains thread then frontier
  else goOn { frontier with seen := frontier.seen.insert thread }

/-- Notes a thread that cannot be unfolded further. -/
def await (thread : Thread) (frontier : Frontier) : Frontier :=
  frontier.visit thread fun visited => { visited with waiting := thread :: visited.waiting }

end Frontier

/-! ### Unfolding -/

/-- How an expression is unfolded, given what comes after it and how to go on where it matches
nothing. -/
abbrev Unfolding := Thread → (Frontier → Frontier) → Frontier → Frontier

namespace Regex

/-- Unfolds a loop: one more copy is preferred to no more. A copy that matches nothing is back at
a thread that was met before, so nothing goes on from there. -/
def unfoldStar (body : Regex) (unfoldBody : Unfolding) : Unfolding := fun after goOn frontier =>
  frontier.visit (.todo (star body) :: after) fun visited =>
    goOn (unfoldBody (.todo (star body) :: after) id visited)

/-- Unfolds copies of a body with a lower bound, the last of which begins a loop. -/
def unfoldAtLeast (body : Regex) (unfoldBody : Unfolding) : Nat → Unfolding
  | 0, after, goOn, frontier =>
    frontier.visit (.todo (repeated body 0 none) :: after) fun visited =>
      goOn (unfoldBody (.todo (star body) :: after) (unfoldStar body unfoldBody after goOn) visited)
  | 1, after, goOn, frontier =>
    unfoldBody (.todo (star body) :: after) (unfoldStar body unfoldBody after goOn) frontier
  | least + 2, after, goOn, frontier =>
    unfoldBody (.todo (repeated body (least + 1) none) :: after)
      (unfoldAtLeast body unfoldBody (least + 1) after goOn) frontier

/-- Unfolds copies of a body that need not be there, at most so many: one more copy is preferred to
no more. -/
def unfoldUpTo (body : Regex) (unfoldBody : Unfolding) : Nat → Unfolding
  | 0, _, goOn, frontier => goOn frontier
  | more + 1, after, goOn, frontier =>
    frontier.visit (.todo (repeated body 0 (some (more + 1))) :: after) fun visited =>
      goOn (unfoldBody (.todo (repeated body 0 (some more)) :: after)
        (unfoldUpTo body unfoldBody more after goOn) visited)

/-- Unfolds copies of a body, so many that must be there and so many more that need not. -/
def unfoldBetween (body : Regex) (unfoldBody : Unfolding) (more : Nat) : Nat → Unfolding
  | 0, after, goOn, frontier => unfoldUpTo body unfoldBody more after goOn frontier
  | least + 1, after, goOn, frontier =>
    unfoldBody (.todo (repeated body least (some (least + more))) :: after)
      (unfoldBetween body unfoldBody more least after goOn) frontier

/-- Unfolds an expression. -/
def unfold : Regex → Unfolding
  | empty, _, goOn, frontier => goOn frontier
  | char wanted, after, _, frontier => frontier.await (.todo (char wanted) :: after)
  | otherThan refused, after, _, frontier => frontier.await (.todo (otherThan refused) :: after)
  | seq first second, after, goOn, frontier =>
    first.unfold (.todo second :: after) (second.unfold after goOn) frontier
  | alt first second, after, goOn, frontier =>
    frontier.visit (.todo (alt first second) :: after) fun visited =>
      second.unfold (.inSecond :: after) goOn (first.unfold (.inFirst :: after) goOn visited)
  | star body, after, goOn, frontier => unfoldStar body body.unfold after goOn frontier
  | repeated body least none, after, goOn, frontier =>
    unfoldAtLeast body body.unfold least after goOn frontier
  | repeated body least (some most), after, goOn, frontier =>
    unfoldBetween body body.unfold (most - least) least after goOn frontier

end Regex

/-- Unfolds a thread. -/
def Thread.unfold : Thread → Frontier → Frontier
  | [], frontier => frontier.await []
  | .todo regex :: after, frontier => regex.unfold after (Thread.unfold after) frontier
  | .inFirst :: after, frontier => Thread.unfold after frontier
  | .inSecond :: after, frontier => Thread.unfold after frontier

/-- The threads that wait for a character or accept once the given ones are unfolded, in order of
preference. -/
def Thread.unfoldAll (threads : List Thread) : List Thread :=
  (threads.foldl (fun frontier thread => thread.unfold frontier) Frontier.empty).waiting.reverse

/-! ### Search -/

/-- What is left of a waiting thread after a character, or `none` if it does not match. -/
def Thread.advance? (char : Char) : Thread → Option Thread
  | .todo (.char wanted) :: after => if char = wanted then some after else none
  | .todo (.otherThan refused) :: after => if char = refused then none else some after
  | _ => none

/-- The number of characters that the most preferred accepting thread takes. The threads are
unfolded. -/
def Thread.preferredLength? (threads : List Thread) : List Char → Option Nat
  | [] => if threads.contains [] then some 0 else none
  | char :: rest =>
    let preferred := threads.takeWhile (· ≠ [])
    let here := if threads.contains [] then some 0 else none
    if preferred.isEmpty then here
    else
      match preferredLength? (Thread.unfoldAll (preferred.filterMap (advance? char))) rest with
      | some length => some (length + 1)
      | none => here

/-- The number of characters of the preferred match at the beginning of a text. -/
def Regex.matchLength? (regex : Regex) (text : List Char) : Option Nat :=
  Thread.preferredLength? (Thread.unfoldAll [[.todo regex]]) text

end ShallowParse
