/-
This file proves that unfolding finds a waiting thread before any other that
matters, if a path leads there on which every way on that is passed over is a dead
end.
-/

import ShallowParse.Proofs.Regex.Graph

namespace ShallowParse

open Frontier

/-! ### Paths of preference -/

/-- What is reached from a thread without going on from the one at the barrier. -/
inductive Avoiding (barrier start : Thread) : Thread → Prop
  | here : Avoiding barrier start start
  | on {thread way : Thread} (reached : Avoiding barrier start thread)
      (passed : thread ≠ barrier) (isNext : way ∈ thread.next) : Avoiding barrier start way

/-- The first way on from a thread that is no dead end: from those passed over, no waiting thread
that can match is reached without coming back to the thread. -/
def Prefers (text : List Char) (thread way : Thread) : Prop :=
  ∃ before later, thread.next = before ++ way :: later ∧
    ∀ passed ∈ before, ∀ other, Avoiding thread passed other → other.next = [] →
      other.ways text = []

theorem Prefers.mem_next {text : List Char} {thread way : Thread}
    (prefers : Prefers text thread way) : way ∈ thread.next := by
  obtain ⟨before, later, parted, _⟩ := prefers
  exact parted ▸ List.mem_append_right _ List.mem_cons_self

/-- So many steps of preference lead from a thread to the target. -/
inductive Leads (text : List Char) (target : Thread) : Nat → Thread → Prop
  | here : Leads text target 0 target
  | step {steps : Nat} {thread way : Thread} (prefers : Prefers text thread way)
      (leads : Leads text target steps way) : Leads text target (steps + 1) thread

/-- So many steps, and no fewer, lead to the target. -/
structure Nearest (text : List Char) (target : Thread) (steps : Nat) (thread : Thread) : Prop where
  leads : Leads text target steps thread
  least : ∀ fewer < steps, ¬Leads text target fewer thread

section Target

variable {text : List Char} {target : Thread}

/-- A thread that does not wait has a way on that is one step nearer. -/
theorem Nearest.exists_way (targetWaits : target.next = []) {steps : Nat} {thread : Thread}
    (nearest : Nearest text target steps thread) (goesOn : thread.next ≠ []) :
    ∃ fewer way, steps = fewer + 1 ∧ Prefers text thread way ∧ Nearest text target fewer way := by
  cases nearest.leads with
  | here => exact absurd targetWaits goesOn
  | @step fewer _ way prefers leads =>
    refine ⟨fewer, way, rfl, prefers, leads, ?_⟩
    intro other lower leadsOther
    exact nearest.least (other + 1) (Nat.succ_lt_succ lower) (leadsOther.step prefers)

/-- No path shorter than the one from a thread comes back to the thread. -/
theorem Avoiding.target_of_leads {steps : Nat} {thread start other : Thread}
    (nearest : Nearest text target steps thread) {fewer : Nat}
    (leads : Leads text target fewer other) (shorter : fewer < steps)
    (reached : Avoiding thread start other) : Avoiding thread start target := by
  induction leads with
  | here => exact reached
  | @step fewer other way prefers leads inductionHypothesis =>
    refine inductionHypothesis (Nat.lt_of_succ_lt shorter) (reached.on ?_ prefers.mem_next)
    rintro rfl
    exact nearest.least _ shorter (leads.step prefers)

/-- Nothing that matters was met before a thread so many steps from the target. -/
structure Clear (text : List Char) (target : Thread) (steps : Nat) (frontier : Frontier) :
    Prop where
  fresh : ∀ thread, frontier.seen.contains thread → ∀ fewer ≤ steps,
    ¬Leads text target fewer thread
  barren : ∀ thread ∈ frontier.waiting, thread.ways text = []

/-- The target waits, and no thread that waited before it can match. -/
def Finds (text : List Char) (target : Thread) (frontier : Frontier) : Prop :=
  ∃ later earlier, frontier.waiting = later ++ target :: earlier ∧
    ∀ thread ∈ earlier, thread.ways text = []

theorem Finds.grows {inside : Thread → Prop} {before after : Frontier}
    (finds : Finds text target before) (grows : Grows inside before after) :
    Finds text target after := by
  obtain ⟨later, earlier, parted, barren⟩ := finds
  obtain ⟨added, isAdded, _⟩ := grows.waiting
  exact ⟨added ++ later, earlier, by rw [isAdded, parted, List.append_assoc], barren⟩

/-- Going on from a thread finds the target if the thread leads there. The frontier is one that
has come from the given one. -/
def Reaches (text : List Char) (target after : Thread) (goOn : Frontier → Frontier)
    (start : Frontier) : Prop :=
  ∀ steps frontier, Nearest text target steps after →
    (∀ thread, start.seen.contains thread → frontier.seen.contains thread) →
      Clear text target steps frontier → Finds text target (goOn frontier)

theorem Reaches.of_later {after : Thread} {goOn : Frontier → Frontier} {start next : Frontier}
    (reaches : Reaches text target after goOn start)
    (kept : ∀ thread, start.seen.contains thread → next.seen.contains thread) :
    Reaches text target after goOn next :=
  fun steps frontier nearest keptNext =>
    reaches steps frontier nearest fun thread met => keptNext thread (kept thread met)

/-- A thread that is visited and kept from going on does not lead anywhere. -/
theorem reaches_id_of_seen {after : Thread} {start : Frontier}
    (seen : start.seen.contains after) : Reaches text target after id start :=
  fun steps _ nearest kept clear =>
    absurd nearest.leads (clear.fresh after (kept after seen) steps (Nat.le_refl steps))

/-- Where the target is met, it is noted. -/
theorem reaches_await {thread : Thread} (waits : thread.next = []) (start : Frontier) :
    Reaches text target thread (Frontier.await thread) start := by
  intro steps frontier nearest _ clear
  have unseen : ¬frontier.seen.contains thread = true := fun seen =>
    clear.fresh thread seen steps (Nat.le_refl steps) nearest.leads
  cases nearest.leads with
  | here =>
    rw [await, visit_of_unseen _ _ _ unseen]
    exact ⟨[], frontier.waiting, rfl, clear.barren⟩
  | step prefers _ =>
    have isNext := prefers.mem_next
    rw [waits] at isNext
    cases isNext

theorem Reaches.of_single (targetWaits : target.next = []) {thread way : Thread}
    {goOn : Frontier → Frontier} {start : Frontier} (reaches : Reaches text target way goOn start)
    (only : thread.next = [way]) : Reaches text target thread goOn start := by
  intro steps frontier nearest kept clear
  obtain ⟨fewer, other, rfl, prefers, nearer⟩ :=
    nearest.exists_way targetWaits (by rw [only]; exact List.cons_ne_nil _ _)
  obtain rfl : other = way := List.mem_singleton.mp (only ▸ prefers.mem_next)
  refine reaches fewer frontier nearer kept ⟨?_, clear.barren⟩
  exact fun thread met less isLess => clear.fresh thread met less (Nat.le_succ_of_le isLess)

/-- Where a dead end is passed over, nothing that matters is met. -/
theorem Clear.of_passed {steps : Nat} {thread passed : Thread} {before after : Frontier}
    (alive : target.ways text ≠ []) (targetWaits : target.next = [])
    (nearest : Nearest text target (steps + 1) thread)
    (deadEnd : ∀ other, Avoiding thread passed other → other.next = [] → other.ways text = [])
    (clear : Clear text target steps before) (grows : Grows (Avoiding thread passed) before after) :
    Clear text target steps after := by
  obtain ⟨added, isAdded, areInside⟩ := grows.waiting
  constructor
  · intro other met fewer isFewer leads
    rcases grows.seen other met with metBefore | reached
    · exact clear.fresh other metBefore fewer isFewer leads
    · exact alive (deadEnd target
        (reached.target_of_leads nearest leads (Nat.lt_succ_of_le isFewer)) targetWaits)
  · intro other member
    rw [isAdded] at member
    rcases List.mem_append.mp member with isNew | isOld
    · exact deadEnd other (areInside other isNew).1 (areInside other isNew).2
    · exact clear.barren other isOld

/-- A thread with two ways on is visited, and the target is found on the way that leads there. -/
theorem Reaches.of_visit (alive : target.ways text ≠ []) (targetWaits : target.next = [])
    {thread first second : Thread} {goOnFirst goOnSecond : Frontier → Frontier} {start : Frontier}
    (ways : thread.next = [first, second]) (continuesFirst : Continues first goOnFirst)
    (continuesSecond : Continues second goOnSecond)
    (ofFirst : Reaches text target first goOnFirst (start.met thread))
    (ofSecond : Reaches text target second goOnSecond start) :
    Reaches text target thread
      (fun frontier => frontier.visit thread fun visited => goOnSecond (goOnFirst visited))
      start := by
  intro steps frontier nearest kept clear
  have unseen : ¬frontier.seen.contains thread = true := fun seen =>
    clear.fresh thread seen steps (Nat.le_refl steps) nearest.leads
  obtain ⟨fewer, way, rfl, ⟨before, later, parted, deadEnds⟩, nearer⟩ :=
    nearest.exists_way targetWaits (by rw [ways]; exact List.cons_ne_nil _ _)
  have clearMet : Clear text target fewer (frontier.met thread) := by
    refine ⟨?_, clear.barren⟩
    intro other isMet less isLess
    rcases (contains_met _ _ _).mp isMet with rfl | metBefore
    · exact nearest.least less (Nat.lt_succ_of_le isLess)
    · exact clear.fresh other metBefore less (Nat.le_succ_of_le isLess)
  have keptMet : ∀ other, start.seen.contains other → (frontier.met thread).seen.contains other :=
    fun other met => (contains_met _ _ _).mpr (Or.inr (kept other met))
  show Finds text target (frontier.visit thread _)
  rw [visit_of_unseen _ _ _ unseen]
  rw [ways] at parted
  match before, parted, deadEnds with
  | [], parted, _ =>
    obtain ⟨rfl, _⟩ := List.cons.inj parted
    have found := ofFirst fewer (frontier.met thread) nearer ?_ clearMet
    · have region : Region (fun _ => True) fun _ => False :=
        ⟨fun _ _ _ _ _ => trivial, fun _ => False.elim⟩
      exact found.grows (continuesSecond _ _ region trivial _ fun _ => False.elim)
    · intro other met
      rw [contains_met] at met ⊢
      exact met.imp_right (kept other)
  | [passed], parted, deadEnds =>
    obtain ⟨rfl, others⟩ := List.cons.inj parted
    obtain ⟨rfl, _⟩ := List.cons.inj others
    have grows : Grows (Avoiding thread first) (frontier.met thread)
        (goOnFirst (frontier.met thread)) := by
      refine continuesFirst _ (· = thread) ⟨?_, ?_⟩ Avoiding.here _ ?_
      · exact fun other reached notThread way isNext => reached.on notThread isNext
      · exact fun other isThread => by rw [isThread, ways]; rfl
      · exact fun other isThread => (contains_met _ _ _).mpr (Or.inl isThread)
    have clearAfter := clearMet.of_passed alive targetWaits nearest
      (deadEnds first (List.mem_singleton_self first)) grows
    exact ofSecond fewer _ nearer (fun other met => grows.kept other (keptMet other met)) clearAfter
  | _ :: _ :: _, parted, _ => simp at parted

/-- Going through the graph finds the target. -/
theorem goesThrough_reaches (alive : target.ways text ≠ []) (targetWaits : target.next = []) :
    GoesThrough fun after goOn start =>
      Continues after goOn ∧ Reaches text target after goOn start where
  await start waits := ⟨goesThrough_continues.await start waits, reaches_await waits start⟩
  only ofWay only := ⟨ofWay.1.of_single only, ofWay.2.of_single targetWaits only⟩
  visit ofFirst ofSecond ways := ⟨ofFirst.1.of_visit ofSecond.1 ways,
    Reaches.of_visit alive targetWaits ways ofFirst.1 ofSecond.1 ofFirst.2 ofSecond.2⟩
  stop seen := ⟨continues_id _, reaches_id_of_seen seen⟩
  later ofStart kept := ⟨ofStart.1, ofStart.2.of_later kept⟩

theorem reaches_unfold_thread (alive : target.ways text ≠ []) (targetWaits : target.next = [])
    (thread : Thread) (start : Frontier) : Reaches text target thread thread.unfold start :=
  ((goesThrough_reaches alive targetWaits).unfold_thread thread start).2

end Target

end ShallowParse
