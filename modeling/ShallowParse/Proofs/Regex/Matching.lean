/-
This file proves what a search finds. The length of the match is always that of
one of the ways in which the expression matches by backtracking. If the expression
is steady, it is that of the first way, and there is no match only where there is
no way.
-/

import Mathlib.Data.Nat.Find
import ShallowParse.Proofs.Regex.Paths

namespace ShallowParse

open Frontier

/-! ### Threads that decide -/

/-- Whether all expressions of a thread are steady. -/
def Thread.IsSteady : Thread → Prop
  | [] => True
  | .todo regex :: after => regex.isSteady = true ∧ IsSteady after
  | .inFirst :: after => IsSteady after
  | .inSecond :: after => IsSteady after

namespace Thread

/-- The ways on from a steady thread are steady. -/
theorem IsSteady.next {thread : Thread} (steady : thread.IsSteady) :
    ∀ way ∈ thread.next, way.IsSteady := by
  fun_cases Thread.next thread with
  | case1 => exact List.forall_mem_nil _
  | case2 after => exact List.forall_mem_singleton.mpr steady
  | case3 after => exact List.forall_mem_singleton.mpr steady
  | case4 after => exact List.forall_mem_singleton.mpr steady.2
  | case5 => exact List.forall_mem_nil _
  | case6 => exact List.forall_mem_nil _
  | case7 first second after =>
    obtain ⟨ofFirst, ofSecond⟩ := Bool.and_eq_true_iff.mp steady.1
    exact List.forall_mem_singleton.mpr ⟨ofFirst, ofSecond, steady.2⟩
  | case8 first second after =>
    obtain ⟨ofFirst, ofSecond⟩ := Bool.and_eq_true_iff.mp steady.1
    exact List.forall_mem_cons.mpr
      ⟨⟨ofFirst, steady.2⟩, List.forall_mem_singleton.mpr ⟨ofSecond, steady.2⟩⟩
  | case9 body after =>
    have ofBody := (Bool.and_eq_true_iff.mp steady.1).1
    exact List.forall_mem_cons.mpr
      ⟨⟨ofBody, steady⟩, List.forall_mem_singleton.mpr steady.2⟩
  | case10 body after =>
    obtain ⟨ofBody, _⟩ := Bool.and_eq_true_iff.mp steady.1
    exact List.forall_mem_cons.mpr
      ⟨⟨ofBody, steady⟩, List.forall_mem_singleton.mpr steady.2⟩
  | case11 body after =>
    obtain ⟨ofBody, _⟩ := Bool.and_eq_true_iff.mp steady.1
    exact List.forall_mem_singleton.mpr ⟨ofBody, steady⟩
  | case12 body least after =>
    obtain ⟨ofBody, _⟩ := Bool.and_eq_true_iff.mp steady.1
    exact List.forall_mem_singleton.mpr ⟨ofBody, steady⟩
  | case13 body after => exact List.forall_mem_singleton.mpr steady.2
  | case14 body more after =>
    obtain ⟨ofBody, bounded⟩ := Bool.and_eq_true_iff.mp steady.1
    have ofRest : (Regex.repeated body 0 (some more)).isSteady = true := by
      refine Bool.and_eq_true_iff.mpr ⟨ofBody, Bool.or_eq_true_iff.mpr ?_⟩
      refine (Bool.or_eq_true_iff.mp bounded).imp_left fun few => ?_
      exact decide_eq_true (Nat.le_of_succ_le (of_decide_eq_true few))
    exact List.forall_mem_cons.mpr
      ⟨⟨ofBody, ofRest, steady.2⟩, List.forall_mem_singleton.mpr steady.2⟩
  | case15 body least most after =>
    obtain ⟨ofBody, bounded⟩ := Bool.and_eq_true_iff.mp steady.1
    have ofRest :
        (Regex.repeated body least (some (least + (most - (least + 1))))).isSteady = true := by
      refine Bool.and_eq_true_iff.mpr ⟨ofBody, Bool.or_eq_true_iff.mpr ?_⟩
      refine (Bool.or_eq_true_iff.mp bounded).imp_left fun few => ?_
      have few : most ≤ least + 1 + 1 := of_decide_eq_true few
      exact decide_eq_true (by omega)
    exact List.forall_mem_singleton.mpr ⟨ofBody, ofRest, steady.2⟩

/-- From a steady thread that can match, preference leads to a waiting thread with the same first
way. -/
theorem exists_target (thread : Thread) (steady : thread.IsSteady) (text : List Char)
    (alive : thread.ways text ≠ []) :
    ∃ target : Thread, target.next = [] ∧ Path text thread target ∧
      (target.ways text).head? = (thread.ways text).head? := by
  induction thread with
  | nil => exact ⟨[], rfl, Relation.ReflTransGen.refl, rfl⟩
  | cons frame after inductionHypothesis =>
    cases frame with
    | todo regex =>
      obtain ⟨rest, leaves⟩ : ∃ rest, Leaves text regex after rest := by
        refine Ways.exists_picks ?_
        rw [ne_eq, ways_todo_eq_nil_iff] at alive
        simpa using alive
      have decides := decides regex steady.1 text after rest leaves
      have sameFirst : (ways (.todo regex :: after) text).head? = (ways after rest).head? := by
        rw [ways_todo, Ways.head?_flatMap_of_picks leaves]
      rw [sameFirst]
      by_cases shorter : rest.length < text.length
      · exact decides.taken shorter
      · obtain rfl := regex.leavesSuffix_ways.eq_of_not_lt leaves.mem shorter
        obtain ⟨_, _, _, _, aliveAfter⟩ := id leaves
        obtain ⟨target, waits, path, same⟩ := inductionHypothesis steady.2 aliveAfter
        exact ⟨target, waits, (decides.untaken rfl).trans path, same⟩
    | inFirst =>
      obtain ⟨target, waits, path, same⟩ := inductionHypothesis steady alive
      exact ⟨target, waits, path.head (Prefers.of_only rfl), same⟩
    | inSecond =>
      obtain ⟨target, waits, path, same⟩ := inductionHypothesis steady alive
      exact ⟨target, waits, path.head (Prefers.of_only rfl), same⟩

end Thread

/-- A path that exists has a shortest one. -/
theorem exists_nearest {text : List Char} {thread target : Thread}
    (path : Path text thread target) : ∃ steps, Nearest text target steps thread := by
  have some : ∃ steps, Leads text target steps thread := by
    induction path using Relation.ReflTransGen.head_induction_on with
    | refl => exact ⟨0, Leads.here⟩
    | head prefers _ inductionHypothesis =>
      obtain ⟨steps, leads⟩ := inductionHypothesis
      exact ⟨steps + 1, leads.step prefers⟩
  classical
  exact ⟨Nat.find some, Nat.find_spec some, fun fewer isFewer => Nat.find_min some isFewer⟩

/-- A thread that leads to a target has the ways of the target. -/
theorem Leads.ways_subset {text : List Char} {steps : Nat} {thread target : Thread}
    (leads : Leads text target steps thread) : target.ways text ⊆ thread.ways text := by
  induction leads with
  | here => exact List.Subset.refl _
  | step prefers _ inductionHypothesis =>
    exact List.Subset.trans inductionHypothesis
      (Thread.ways_next_subset _ text _ prefers.mem_next)

/-! ### Unfolding all threads -/

/-- The frontier after some more threads are unfolded. -/
def Frontier.unfoldMore (frontier : Frontier) (threads : List Thread) : Frontier :=
  threads.foldl (fun frontier thread => thread.unfold frontier) frontier

theorem Frontier.grows_unfoldMore {inside : Thread → Prop}
    (closed : ∀ thread, inside thread → ∀ way ∈ thread.next, inside way) (threads : List Thread)
    (areInside : ∀ thread ∈ threads, inside thread) (frontier : Frontier) :
    Grows inside frontier (frontier.unfoldMore threads) := by
  have region : Region inside fun _ => False :=
    ⟨fun thread isInside _ => closed thread isInside, fun _ => False.elim⟩
  induction threads generalizing frontier with
  | nil => exact Grows.refl frontier
  | cons thread rest inductionHypothesis =>
    obtain ⟨isInside, areRestInside⟩ := List.forall_mem_cons.mp areInside
    have first := continues_unfold_thread thread inside _ region isInside frontier
      fun _ => False.elim
    exact first.trans (inductionHypothesis areRestInside _)

/-- Where threads that cannot match were unfolded, nothing that matters was met. -/
theorem Clear.of_dead {text : List Char} {target : Thread} (alive : target.ways text ≠ [])
    (steps : Nat) {threads : List Thread} (dead : ∀ thread ∈ threads, thread.ways text = []) :
    Clear text target steps (Frontier.empty.unfoldMore threads) := by
  have grows := Frontier.empty.grows_unfoldMore Thread.ways_eq_nil_of_next threads dead
  obtain ⟨added, isAdded, areDead⟩ := grows.waiting
  constructor
  · intro thread met fewer _ leads
    rcases grows.seen thread met with inEmpty | isDead
    · rw [show Frontier.empty.seen = ThreadSet.empty from rfl, ThreadSet.contains_empty] at inEmpty
      cases inEmpty
    · exact alive (List.subset_nil.mp (isDead ▸ leads.ways_subset))
  · intro thread member
    rw [isAdded] at member
    exact (areDead thread ((List.mem_append.mp member).resolve_right List.not_mem_nil)).1

namespace Thread

/-- Unfolding keeps every property that the ways on from a thread share with it. -/
theorem forall_mem_unfoldAll {inside : Thread → Prop}
    (closed : ∀ thread, inside thread → ∀ way ∈ thread.next, inside way) (threads : List Thread)
    (areInside : ∀ thread ∈ threads, inside thread) :
    ∀ thread ∈ unfoldAll threads, inside thread ∧ thread.next = [] := by
  obtain ⟨added, isAdded, areAdded⟩ :=
    (Frontier.empty.grows_unfoldMore closed threads areInside).waiting
  intro thread member
  refine areAdded thread ?_
  have inWaiting : thread ∈ (Frontier.empty.unfoldMore threads).waiting :=
    List.mem_reverse.mp member
  rw [isAdded] at inWaiting
  exact (List.mem_append.mp inWaiting).resolve_right List.not_mem_nil

/-- The first way of several threads, in their order. -/
def firstWay? (threads : List Thread) (text : List Char) : Option (List Char) :=
  (threads.flatMap fun thread => thread.ways text).head?

/-- Before the first thread that can match are threads that cannot. -/
theorem exists_first_alive {threads : List Thread} {text : List Char}
    (some : ∃ thread ∈ threads, thread.ways text ≠ []) :
    ∃ before thread later, threads = before ++ thread :: later ∧
      (∀ passed ∈ before, passed.ways text = []) ∧ thread.ways text ≠ [] := by
  induction threads with
  | nil => simp at some
  | cons first others inductionHypothesis =>
    by_cases alive : first.ways text = []
    · rw [List.exists_mem_cons_iff] at some
      obtain ⟨before, thread, later, parted, dead, isAlive⟩ :=
        inductionHypothesis (some.resolve_left fun isAlive => isAlive alive)
      exact ⟨first :: before, thread, later, congrArg _ parted,
        List.forall_mem_cons.mpr ⟨alive, dead⟩, isAlive⟩
    · exact ⟨[], first, others, rfl, List.forall_mem_nil _, alive⟩

/-- Where no thread before one that can match does, its waiting target decides the first way. -/
theorem firstWay?_of_finds {text : List Char} {target : Thread} {frontier : Frontier}
    (alive : target.ways text ≠ []) (finds : Finds text target frontier) :
    firstWay? frontier.waiting.reverse text = (target.ways text).head? := by
  obtain ⟨later, earlier, parted, barren⟩ := finds
  have nothing : earlier.reverse.flatMap (fun thread => thread.ways text) = [] :=
    List.flatMap_eq_nil_iff.mpr fun thread member => barren thread (List.mem_reverse.mp member)
  rw [firstWay?, parted, List.reverse_append, List.reverse_cons, List.append_assoc,
    List.flatMap_append, nothing, List.nil_append, List.singleton_append, List.flatMap_cons,
    List.head?_append_of_ne_nil _ alive]

/-- Unfolding steady threads keeps their first way. -/
theorem firstWay?_unfoldAll (threads : List Thread) (steady : ∀ thread ∈ threads, thread.IsSteady)
    (text : List Char) : firstWay? (unfoldAll threads) text = firstWay? threads text := by
  by_cases some : ∃ thread ∈ threads, thread.ways text ≠ []
  · obtain ⟨before, thread, later, rfl, dead, alive⟩ := exists_first_alive some
    have isSteady := steady thread (List.mem_append_right _ List.mem_cons_self)
    obtain ⟨target, waits, path, sameFirst⟩ := exists_target thread isSteady text alive
    have targetAlive : target.ways text ≠ [] := by
      rw [ne_eq, ← List.head?_eq_none_iff, sameFirst, List.head?_eq_none_iff]
      exact alive
    obtain ⟨steps, nearest⟩ := exists_nearest path
    have found := reaches_unfold_thread targetAlive waits thread
      (Frontier.empty.unfoldMore before) steps _ nearest (fun _ => id)
      (Clear.of_dead targetAlive steps dead)
    have foundLater := found.grows (Frontier.grows_unfoldMore (fun _ _ _ _ => trivial) later
      (fun _ _ => trivial) _)
    have unfolded : unfoldAll (before ++ thread :: later) =
        ((thread.unfold (Frontier.empty.unfoldMore before)).unfoldMore later).waiting.reverse := by
      rw [unfoldAll, List.foldl_append, List.foldl_cons]
      rfl
    have nothing : before.flatMap (fun thread => thread.ways text) = [] :=
      List.flatMap_eq_nil_iff.mpr dead
    rw [unfolded, firstWay?_of_finds targetAlive foundLater, sameFirst, firstWay?,
      List.flatMap_append, nothing, List.nil_append, List.flatMap_cons,
      List.head?_append_of_ne_nil _ alive]
  · have dead : ∀ thread ∈ threads, thread.ways text = [] := by simpa using some
    have nothing : threads.flatMap (fun thread => thread.ways text) = [] :=
      List.flatMap_eq_nil_iff.mpr dead
    have nothingLater : (unfoldAll threads).flatMap (fun thread => thread.ways text) = [] :=
      List.flatMap_eq_nil_iff.mpr fun thread member =>
        (forall_mem_unfoldAll ways_eq_nil_of_next threads dead thread member).1
    rw [firstWay?, firstWay?, nothing, nothingLater]

/-! ### Going through the text -/

/-- A thread without a way on accepts or waits for a character, which it takes. -/
theorem ways_of_waits {thread : Thread} (waits : thread.next = []) (pending : thread ≠ [])
    (char : Char) (rest : List Char) :
    thread.ways (char :: rest) =
      ((thread.advance? char).map fun after => after.ways rest).getD [] := by
  fun_cases advance? char thread with
  | case1 after =>
    rw [ways_todo, Regex.ways, Ways.single, if_pos (decide_eq_true rfl)]
    exact List.flatMap_singleton _ _
  | case2 _ after refused =>
    rw [ways_todo, Regex.ways, Ways.single, if_neg (by simpa using refused)]
    rfl
  | case3 after =>
    rw [ways_todo, Regex.ways, Ways.single, if_neg (by simp)]
    rfl
  | case4 _ after accepted =>
    rw [ways_todo, Regex.ways, Ways.single, if_pos (by simpa using accepted)]
    exact List.flatMap_singleton _ _
  | case5 _ noChar noOther =>
    fun_cases next thread with
    | case1 => exact absurd rfl pending
    | case5 => exact absurd rfl (noChar _ _)
    | case6 => exact absurd rfl (noOther _ _)
    | _ => simp [next] at waits

theorem ways_nil_of_waits {thread : Thread} (waits : thread.next = []) (pending : thread ≠ []) :
    thread.ways [] = [] := by
  fun_cases next thread with
  | case1 => exact absurd rfl pending
  | case5 => rfl
  | case6 => rfl
  | _ => simp [next] at waits

theorem preferredLength?_nil (text : List Char) : preferredLength? [] text = none := by
  cases text <;> rfl

theorem firstWay?_append (before later : List Thread) (text : List Char) :
    firstWay? (before ++ later) text = (firstWay? before text).or (firstWay? later text) := by
  rw [firstWay?, List.flatMap_append, List.head?_append]
  rfl

/-- The first way of waiting threads is that of what is left of them after the character. -/
theorem firstWay?_advance {threads : List Thread}
    (waits : ∀ thread ∈ threads, thread.next = [] ∧ thread ≠ []) (char : Char)
    (rest : List Char) :
    firstWay? threads (char :: rest) = firstWay? (threads.filterMap (advance? char)) rest := by
  induction threads with
  | nil => rfl
  | cons thread others inductionHypothesis =>
    obtain ⟨⟨waitsHere, pending⟩, waitOthers⟩ := List.forall_mem_cons.mp waits
    have same := inductionHypothesis waitOthers
    rw [firstWay?, List.flatMap_cons, List.head?_append, ways_of_waits waitsHere pending]
    cases isLeft : thread.advance? char with
    | none =>
      rw [List.filterMap_cons_none isLeft]
      exact same
    | some after =>
      rw [List.filterMap_cons_some isLeft, firstWay?, List.flatMap_cons, List.head?_append]
      exact congrArg _ same

/-- The threads that are preferred to the first accepting one. -/
def preferred (threads : List Thread) : List Thread :=
  threads.takeWhile (· ≠ [])

theorem waits_of_preferred {threads : List Thread}
    (waits : ∀ thread ∈ threads, thread.next = []) :
    ∀ thread ∈ preferred threads, thread.next = [] ∧ thread ≠ [] := by
  intro thread member
  refine ⟨waits thread (List.takeWhile_subset _ member), ?_⟩
  simpa using List.mem_takeWhile_imp member

/-- The first way is that of the preferred threads, or else that of an accepting one. -/
theorem firstWay?_eq_or (threads : List Thread) (text : List Char) :
    firstWay? threads text =
      (firstWay? (preferred threads) text).or
        (if threads.contains [] then some text else none) := by
  induction threads with
  | nil => rfl
  | cons thread others inductionHypothesis =>
    cases thread with
    | nil => simp [firstWay?, preferred, ways]
    | cons frame after =>
      have isPreferred : preferred ((frame :: after) :: others) =
          [frame :: after] ++ preferred others :=
        List.takeWhile_cons_of_pos (by simp)
      rw [isPreferred, ← List.singleton_append, firstWay?_append, firstWay?_append,
        Option.or_assoc, inductionHypothesis]
      simp

/-- The threads before the first accepting one go on, and it counts where they do not. -/
theorem preferredLength?_cons (threads : List Thread) (char : Char) (rest : List Char) :
    preferredLength? threads (char :: rest) =
      ((preferredLength? (unfoldAll ((preferred threads).filterMap (advance? char))) rest).map
        (· + 1)).or (if threads.contains [] then some 0 else none) := by
  rw [preferredLength?, ← preferred]
  split
  · rename_i nonePreferred
    have nothing : preferredLength?
        (unfoldAll (([] : List Thread).filterMap (advance? char))) rest = none :=
      preferredLength?_nil rest
    rw [List.isEmpty_iff.mp nonePreferred, nothing]
    rfl
  · split
    · rename_i length isLength
      rw [isLength]
      rfl
    · rename_i isNone
      rw [isNone]
      rfl

theorem IsSteady.of_advance {char : Char} {thread after : Thread} (steady : thread.IsSteady)
    (isLeft : thread.advance? char = some after) : after.IsSteady := by
  fun_cases advance? char thread with
  | case1 => simp_all [advance?, IsSteady]
  | case2 => simp_all [advance?]
  | case3 => simp_all [advance?]
  | case4 => simp_all [advance?, IsSteady]
  | case5 => simp_all [advance?]

/-- What the first way leaves is what the preferred length takes, if the threads are steady. -/
theorem preferredLength?_eq (text : List Char) (threads : List Thread)
    (steady : ∀ thread ∈ threads, thread.IsSteady) (waits : ∀ thread ∈ threads, thread.next = []) :
    preferredLength? threads text =
      (firstWay? threads text).map fun rest => text.length - rest.length := by
  induction text generalizing threads with
  | nil =>
    have nothing : (preferred threads).flatMap (fun thread => thread.ways []) = [] :=
      List.flatMap_eq_nil_iff.mpr fun thread member =>
        ways_nil_of_waits (waits_of_preferred waits thread member).1
          (waits_of_preferred waits thread member).2
    rw [firstWay?_eq_or, firstWay?, nothing, preferredLength?]
    split <;> rfl
  | cons char rest inductionHypothesis =>
    have areSteady : ∀ thread ∈ (preferred threads).filterMap (advance? char),
        thread.IsSteady := by
      intro after member
      obtain ⟨thread, isPreferred, isLeft⟩ := List.mem_filterMap.mp member
      exact (steady thread (List.takeWhile_subset _ isPreferred)).of_advance isLeft
    have unfolded := forall_mem_unfoldAll (fun _ isSteady => isSteady.next) _ areSteady
    rw [preferredLength?_cons,
      inductionHypothesis _ (fun thread member => (unfolded thread member).1)
        (fun thread member => (unfolded thread member).2),
      firstWay?_unfoldAll _ areSteady,
      firstWay?_eq_or threads, firstWay?_advance (waits_of_preferred waits)]
    cases isFirst : firstWay? ((preferred threads).filterMap (advance? char)) rest with
    | none =>
      show (if threads.contains [] then some 0 else none) = _
      split <;> simp
    | some left =>
      obtain ⟨thread, _, isWay⟩ := List.mem_flatMap.mp (List.mem_of_head? isFirst)
      have leftLe := (thread.leavesSuffix_ways rest left isWay).length_le
      show some (rest.length - left.length + 1) = some (rest.length + 1 - left.length)
      rw [Nat.sub_add_comm leftLe]

theorem exists_way_of_accepting {threads : List Thread} {length : Nat}
    (isHere : (if threads.contains [] then some 0 else none) = some length) (text : List Char) :
    ∃ thread ∈ threads, ∃ left ∈ thread.ways text, left.length + length = text.length := by
  split at isHere
  · rename_i accepting
    obtain rfl := Option.some.inj isHere
    exact ⟨[], List.contains_iff_mem.mp accepting, text, List.mem_singleton_self text, rfl⟩
  · cases isHere

/-- The preferred length is that of one of the ways. -/
theorem exists_way_of_preferredLength? (text : List Char) (threads : List Thread)
    (waits : ∀ thread ∈ threads, thread.next = []) (length : Nat)
    (found : preferredLength? threads text = some length) :
    ∃ thread ∈ threads, ∃ left ∈ thread.ways text, left.length + length = text.length := by
  induction text generalizing threads length with
  | nil => exact exists_way_of_accepting found []
  | cons char rest inductionHypothesis =>
    rw [preferredLength?_cons, Option.or_eq_some_iff] at found
    rcases found with goesOn | ⟨_, isHere⟩
    · obtain ⟨shorter, isShorter, rfl⟩ := Option.map_eq_some_iff.mp goesOn
      have areWithin : ∀ after ∈ (preferred threads).filterMap (advance? char),
          after.ways rest ⊆
            ((preferred threads).filterMap (advance? char)).flatMap fun after => after.ways rest :=
        fun after member left isLeft => List.mem_flatMap.mpr ⟨after, member, isLeft⟩
      have unfolded := forall_mem_unfoldAll ways_within_of_next _ areWithin
      obtain ⟨target, isTarget, left, isLeft, sameLength⟩ := inductionHypothesis _
        (fun thread member => (unfolded thread member).2) shorter isShorter
      obtain ⟨after, isAfter, isLeft⟩ := List.mem_flatMap.mp ((unfolded target isTarget).1 isLeft)
      obtain ⟨thread, isThread, isAdvanced⟩ := List.mem_filterMap.mp isAfter
      obtain ⟨waitsHere, pending⟩ := waits_of_preferred waits thread isThread
      refine ⟨thread, List.takeWhile_subset _ isThread, left, ?_, ?_⟩
      · rw [ways_of_waits waitsHere pending, isAdvanced]
        exact isLeft
      · rw [← Nat.add_assoc, sameLength, List.length_cons]
    · exact exists_way_of_accepting isHere (char :: rest)

end Thread

/-! ### Searching for an expression -/

namespace Regex

/-- A match has the length of one of the ways in which the expression matches. -/
theorem exists_way_of_matchLength? (regex : Regex) (text : List Char) (length : Nat)
    (found : regex.matchLength? text = some length) :
    ∃ rest ∈ regex.ways text, rest.length + length = text.length := by
  have same : Thread.ways [.todo regex] text = regex.ways text := List.flatMap_singleton' _
  have isWithin : ∀ thread ∈ [[Frame.todo regex]], Thread.ways thread text ⊆ regex.ways text :=
    List.forall_mem_singleton.mpr (same ▸ List.Subset.refl _)
  have unfolded := Thread.forall_mem_unfoldAll Thread.ways_within_of_next _ isWithin
  obtain ⟨thread, isThread, rest, isRest, sameLength⟩ := Thread.exists_way_of_preferredLength?
    text _ (fun thread member => (unfolded thread member).2) length found
  exact ⟨rest, (unfolded thread isThread).1 isRest, sameLength⟩

/-- The match of a steady expression is its first way, and where there is none it has no way. -/
theorem matchLength?_eq (regex : Regex) (steady : regex.isSteady = true) (text : List Char) :
    regex.matchLength? text =
      (regex.ways text).head?.map fun rest => text.length - rest.length := by
  have isSteady : ∀ thread ∈ [[Frame.todo regex]], Thread.IsSteady thread :=
    List.forall_mem_singleton.mpr ⟨steady, trivial⟩
  have unfolded := Thread.forall_mem_unfoldAll (fun _ isSteady => isSteady.next) _ isSteady
  rw [matchLength?, Thread.preferredLength?_eq text _
    (fun thread member => (unfolded thread member).1)
    (fun thread member => (unfolded thread member).2), Thread.firstWay?_unfoldAll _ isSteady,
    Thread.firstWay?, List.flatMap_singleton, Thread.ways_todo]
  exact congrArg (fun rests : List (List Char) => rests.head?.map _) (List.flatMap_singleton' _)

end Regex

end ShallowParse
