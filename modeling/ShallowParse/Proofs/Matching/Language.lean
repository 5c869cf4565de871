/-
This file relates ways to match to languages. Ways spell a language if they leave a
list just after each run of the language with which the list begins, in whatever order.
One item, copies and repetitions spell the languages that are built in the same manner.
That a repetition stops at a copy that takes nothing makes no difference, since such
a copy adds nothing to the run.
-/

import Mathlib.Computability.Language
import ShallowParse.Proofs.Matching.Ways

namespace ShallowParse.Ways

variable {Item : Type}

/-- Whether the ways leave a list just after the runs of a language with which it begins. -/
def Spell (ways : Ways Item) (language : Language Item) : Prop :=
  ∀ items rest, rest ∈ ways items ↔ ∃ run ∈ language, items = run ++ rest

variable {ways : Ways Item} {language : Language Item}

theorem Spell.leavesSuffix (spell : ways.Spell language) : LeavesSuffix ways := by
  intro items rest member
  obtain ⟨run, _, rfl⟩ := (spell items rest).mp member
  exact List.suffix_append run rest

theorem Spell.mem (spell : ways.Spell language) {run : List Item} (inLanguage : run ∈ language)
    (rest : List Item) : rest ∈ ways (run ++ rest) :=
  (spell _ rest).mpr ⟨run, inLanguage, rfl⟩

/-! ### Parts of patterns -/

theorem spell_single (accepts : Item → Bool) :
    (single accepts).Spell {run | ∃ item, accepts item = true ∧ run = [item]} := by
  intro items rest
  constructor
  · intro member
    obtain ⟨item, accepted, rfl⟩ := exists_of_mem_single member
    exact ⟨[item], ⟨item, accepted, rfl⟩, rfl⟩
  · rintro ⟨_, ⟨item, accepted, rfl⟩, rfl⟩
    rw [List.singleton_append, single, if_pos accepted]
    exact List.mem_singleton_self rest

theorem spell_nothing : Spell (fun items : List Item => [items]) 1 := by
  intro items rest
  rw [List.mem_singleton]
  constructor
  · rintro rfl
    exact ⟨[], rfl, rfl⟩
  · rintro ⟨run, isNil, rfl⟩
    rw [(Language.mem_one run).mp isNil]
    rfl

theorem Spell.either {other : Ways Item} {otherLanguage : Language Item}
    (first : ways.Spell language) (second : other.Spell otherLanguage) :
    Spell (fun items => ways items ++ other items) (language + otherLanguage) := by
  intro items rest
  simp only [List.mem_append, first items rest, second items rest, Language.mem_add]
  simp only [or_and_right, exists_or]

theorem Spell.inOrder {other : Ways Item} {otherLanguage : Language Item}
    (first : ways.Spell language) (second : other.Spell otherLanguage) :
    Spell (fun items => (ways items).flatMap other) (language * otherLanguage) := by
  intro items rest
  rw [List.mem_flatMap]
  constructor
  · rintro ⟨middle, isMiddle, isRest⟩
    obtain ⟨run, inFirst, rfl⟩ := (first _ middle).mp isMiddle
    obtain ⟨more, inSecond, rfl⟩ := (second _ rest).mp isRest
    exact ⟨run ++ more, Language.append_mem_mul inFirst inSecond, (List.append_assoc _ _ _).symm⟩
  · rintro ⟨_, inBoth, rfl⟩
    obtain ⟨run, inFirst, more, inSecond, rfl⟩ := Language.mem_mul.mp inBoth
    rw [List.append_assoc]
    exact ⟨more ++ rest, first.mem inFirst _, second.mem inSecond rest⟩

/-! ### Repetitions -/

theorem Spell.copies (spell : ways.Spell language) (count : Nat) :
    (copies ways count).Spell (language ^ count) := by
  induction count with
  | zero =>
    rw [pow_zero]
    exact spell_nothing
  | succ count inductionHypothesis =>
    rw [pow_succ']
    exact spell.inOrder inductionHypothesis

/-- The runs of so many copies as the bounds allow. -/
def languageBetween (language : Language Item) (least : Nat) (most : Option Nat) : Language Item :=
  {run | ∃ count, least ≤ count ∧ (∀ bound ∈ most, count ≤ bound) ∧ run ∈ language ^ count}

theorem nil_mem_languageBetween (language : Language Item) (most : Option Nat) :
    [] ∈ languageBetween language 0 most :=
  ⟨0, Nat.le_refl 0, fun _ _ => Nat.zero_le _, Language.nil_mem_one⟩

theorem append_mem_pow_succ {first run : List Item} {count : Nat} (inLanguage : first ∈ language)
    (isRun : run ∈ language ^ count) : first ++ run ∈ language ^ (count + 1) := by
  rw [pow_succ']
  exact Language.append_mem_mul inLanguage isRun

theorem exists_of_mem_pow_succ {run : List Item} {count : Nat}
    (isRun : run ∈ language ^ (count + 1)) :
    ∃ first ∈ language, ∃ others ∈ language ^ count, run = first ++ others := by
  rw [pow_succ'] at isRun
  obtain ⟨first, inLanguage, others, areOthers, rfl⟩ := Language.mem_mul.mp isRun
  exact ⟨first, inLanguage, others, areOthers, rfl⟩

/-- Copies of runs of one item each are as many as the items of the run that they make up. -/
theorem length_of_mem_pow {accepts : Item → Prop}
    (singles : ∀ run ∈ language, ∃ item, accepts item ∧ run = [item]) {count : Nat}
    {run : List Item} (isRun : run ∈ language ^ count) :
    run.length = count ∧ ∀ item ∈ run, accepts item := by
  induction count generalizing run with
  | zero =>
    rw [pow_zero, Language.mem_one] at isRun
    rw [isRun]
    exact ⟨rfl, List.forall_mem_nil _⟩
  | succ count inductionHypothesis =>
    obtain ⟨first, inLanguage, others, areOthers, rfl⟩ := exists_of_mem_pow_succ isRun
    obtain ⟨item, accepted, rfl⟩ := singles first inLanguage
    obtain ⟨isLength, allAccepted⟩ := inductionHypothesis areOthers
    exact ⟨congrArg (· + 1) isLength, List.forall_mem_cons.mpr ⟨accepted, allAccepted⟩⟩

theorem length_of_mem_languageBetween {accepts : Item → Prop}
    (singles : ∀ run ∈ language, ∃ item, accepts item ∧ run = [item]) {least : Nat}
    {most : Option Nat} {run : List Item} (isRun : run ∈ languageBetween language least most) :
    least ≤ run.length ∧ (∀ bound ∈ most, run.length ≤ bound) ∧ ∀ item ∈ run, accepts item := by
  obtain ⟨count, enough, within, isRun⟩ := isRun
  obtain ⟨rfl, allAccepted⟩ := length_of_mem_pow singles isRun
  exact ⟨enough, within, allAccepted⟩

theorem append_mem_languageBetween {first run : List Item} {most : Option Nat}
    (inLanguage : first ∈ language) (isRun : run ∈ languageBetween language 0 most) :
    first ++ run ∈ languageBetween language 0 (most.map (· + 1)) := by
  obtain ⟨count, _, within, isRun⟩ := isRun
  refine ⟨count + 1, Nat.zero_le _, fun bound isBound => ?_, append_mem_pow_succ inLanguage isRun⟩
  obtain ⟨less, isLess, rfl⟩ := Option.map_eq_some_iff.mp isBound
  exact Nat.succ_le_succ (within less isLess)

/-- One copy spells a run of copies if there is room for one. -/
theorem mem_languageBetween_one (most : Option Nat) {run : List Item} (inLanguage : run ∈ language) :
    run ∈ languageBetween language 0 (most.map (· + 1)) := by
  have alone := append_mem_languageBetween inLanguage (nil_mem_languageBetween language most)
  rwa [List.append_nil] at alone

/-- Optional copies up to a bound spell the runs of at most so many copies. -/
theorem Spell.upTo (spell : ways.Spell language) (more : Nat) :
    (upTo ways more).Spell (languageBetween language 0 (some more)) := by
  intro items rest
  constructor
  · intro member
    induction more generalizing items with
    | zero =>
      rw [List.mem_singleton.mp member]
      exact ⟨[], nil_mem_languageBetween language _, rfl⟩
    | succ more inductionHypothesis =>
      rcases mem_upTo_succ_iff.mp member with ⟨middle, isMiddle, _, isRest⟩ | ⟨isLast, _⟩ | rfl
      · obtain ⟨first, inLanguage, rfl⟩ := (spell _ middle).mp isMiddle
        obtain ⟨run, isRun, rfl⟩ := inductionHypothesis middle isRest
        exact ⟨first ++ run, append_mem_languageBetween inLanguage isRun,
          (List.append_assoc _ _ _).symm⟩
      · obtain ⟨first, inLanguage, rfl⟩ := (spell _ rest).mp isLast
        exact ⟨first, mem_languageBetween_one (some more) inLanguage, rfl⟩
      · exact ⟨[], nil_mem_languageBetween language _, rfl⟩
  · rintro ⟨run, ⟨count, -, within, isRun⟩, rfl⟩
    replace within := within more rfl
    induction count generalizing run more with
    | zero =>
      rw [(Language.mem_one run).mp isRun]
      exact mem_upTo_self ways more rest
    | succ count inductionHypothesis =>
      -- The first copy may take nothing and end the loop, but the others can be had without it.
      obtain ⟨less, rfl⟩ := Nat.exists_eq_add_of_le' (Nat.le_trans (Nat.le_add_left 1 count) within)
      obtain ⟨first, inLanguage, others, areOthers, rfl⟩ := exists_of_mem_pow_succ isRun
      have later := inductionHypothesis less others areOthers (Nat.le_of_succ_le_succ within)
      rw [List.append_assoc]
      exact flatMap_upTo_subset spell.leavesSuffix less _
        (List.mem_flatMap.mpr ⟨others ++ rest, spell.mem inLanguage _, later⟩)

/-- Optional copies without a bound spell the runs of any number of copies. -/
theorem Spell.endless (spell : ways.Spell language) :
    Spell (endless ways) (languageBetween language 0 none) := by
  intro items rest
  constructor
  · intro member
    induction items using endless.induct with
    | case1 items inductionHypothesis =>
      rcases mem_endless_iff.mp member with ⟨middle, isMiddle, shorter, isRest⟩ | ⟨isLast, _⟩ | rfl
      · obtain ⟨first, inLanguage, rfl⟩ := (spell _ middle).mp isMiddle
        obtain ⟨run, isRun, rfl⟩ := inductionHypothesis middle shorter isRest
        exact ⟨first ++ run, append_mem_languageBetween inLanguage isRun,
          (List.append_assoc _ _ _).symm⟩
      · obtain ⟨first, inLanguage, rfl⟩ := (spell _ rest).mp isLast
        exact ⟨first, mem_languageBetween_one none inLanguage, rfl⟩
      · exact ⟨[], nil_mem_languageBetween language _, rfl⟩
  · rintro ⟨run, ⟨count, -, -, isRun⟩, rfl⟩
    induction count generalizing run with
    | zero =>
      rw [(Language.mem_one run).mp isRun]
      exact mem_endless_self ways rest
    | succ count inductionHypothesis =>
      obtain ⟨first, inLanguage, others, areOthers, rfl⟩ := exists_of_mem_pow_succ isRun
      rw [List.append_assoc]
      exact flatMap_endless_subset spell.leavesSuffix _
        (List.mem_flatMap.mpr ⟨_, spell.mem inLanguage _, inductionHypothesis others areOthers⟩)

theorem Spell.optional (spell : ways.Spell language) (most : Option Nat) :
    (optional ways most).Spell (languageBetween language 0 most) := by
  cases most with
  | none => exact spell.endless
  | some more => exact spell.upTo more

/-- Required copies and then optional ones are copies between the bounds, if these are in order. -/
theorem pow_mul_languageBetween (language : Language Item) {least : Nat} {most : Option Nat}
    (ordered : ∀ bound ∈ most, least ≤ bound) :
    language ^ least * languageBetween language 0 (most.map (· - least)) =
      languageBetween language least most := by
  ext run
  constructor
  · rintro inBoth
    obtain ⟨required, areRequired, others, ⟨count, _, within, areOthers⟩, rfl⟩ :=
      Language.mem_mul.mp inBoth
    refine ⟨least + count, Nat.le_add_right _ _, fun bound isBound => ?_, ?_⟩
    · have room := within (bound - least) (Option.mem_map_of_mem _ isBound)
      have inOrder := ordered bound isBound
      omega
    · rw [pow_add]
      exact Language.append_mem_mul areRequired areOthers
  · rintro ⟨count, enough, within, isRun⟩
    obtain ⟨more, rfl⟩ := Nat.exists_eq_add_of_le enough
    rw [pow_add] at isRun
    obtain ⟨required, areRequired, others, areOthers, rfl⟩ := Language.mem_mul.mp isRun
    refine Language.append_mem_mul areRequired
      ⟨more, Nat.zero_le _, fun room isRoom => ?_, areOthers⟩
    obtain ⟨bound, isBound, rfl⟩ := Option.map_eq_some_iff.mp isRoom
    exact Nat.le_sub_of_add_le' (within bound isBound)

/-- A repetition spells the runs of so many copies as its bounds allow, if these are in order. -/
theorem Spell.repeated (spell : ways.Spell language) {least : Nat} {most : Option Nat}
    (ordered : ∀ bound ∈ most, least ≤ bound) :
    (repeated ways least most).Spell (languageBetween language least most) := by
  rw [← pow_mul_languageBetween language ordered]
  exact (spell.copies least).inOrder (spell.optional _)

end ShallowParse.Ways
