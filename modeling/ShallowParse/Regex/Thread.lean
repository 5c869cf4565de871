/-
This file defines the threads of a search, which are what an expression has still
to match, and sets of threads. In a set a thread is looked for only among those
with the same mark, a number that is computed from the outer parts of a thread.
-/

import ShallowParse.Regex
import Std.Data.TreeMap

namespace ShallowParse

/-! ### Threads -/

/-- A part of a thread. The parts `inFirst` and `inSecond` match nothing. They say of what stands
before them which alternative it comes from, so that the same expression in two alternatives
counts as two places. -/
inductive Frame where
  | todo (regex : Regex)
  | inFirst
  | inSecond
deriving DecidableEq

/-- What is still to be matched, in order. -/
abbrev Thread := List Frame

/-! ### Marks -/

/-- A number below a fixed bound that is computed from two others. -/
def combineMarks (first second : Nat) : Nat :=
  (31 * first + second) % 1000003

/-- The mark of an expression: of a row its length, of anything else what shows without looking
inside. -/
def Regex.mark : Regex → Nat
  | empty => 0
  | char wanted => wanted.toNat
  | otherThan refused => refused.toNat + 1
  | seq _ second => second.mark + 1
  | alt _ _ => 2
  | star _ => 3
  | repeated _ least most => combineMarks least (most.getD 0)

def Frame.mark : Frame → Nat
  | todo regex => regex.mark
  | inFirst => 0
  | inSecond => 1

/-- The mark of a thread by its first parts and its length. -/
def Thread.markBy : Nat → Thread → Nat
  | 0, rest => rest.length
  | _ + 1, [] => 0
  | count + 1, frame :: rest => combineMarks (markBy count rest) frame.mark

def Thread.mark (thread : Thread) : Nat :=
  thread.markBy 6

/-! ### Sets -/

/-- A set of threads, those with the same mark in one list. -/
structure ThreadSet where
  lists : Std.TreeMap Nat (List Thread)

namespace ThreadSet

def empty : ThreadSet := ⟨∅⟩

def contains (set : ThreadSet) (thread : Thread) : Bool :=
  (set.lists.getD thread.mark []).contains thread

def insert (set : ThreadSet) (thread : Thread) : ThreadSet :=
  ⟨set.lists.insert thread.mark (thread :: set.lists.getD thread.mark [])⟩

@[simp]
theorem contains_empty (thread : Thread) : empty.contains thread = false := by
  simp [empty, contains]

@[simp]
theorem contains_insert (set : ThreadSet) (added thread : Thread) :
    (set.insert added).contains thread ↔ thread = added ∨ set.contains thread := by
  by_cases same : added.mark = thread.mark
  · simp [insert, contains, same]
  · have different : ¬thread = added := fun equal => same (equal ▸ rfl)
    simp [insert, contains, Std.TreeMap.getD_insert, same, different]

end ThreadSet

end ShallowParse
