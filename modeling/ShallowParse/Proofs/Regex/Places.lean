/-
This file follows an expression through the text of symbols. A place of the text
is outside of all symbols, inside a symbol after a known number of its characters,
or somewhere inside a symbol after any number of them. Expressions for patterns
lead from outside to outside, but a common beginning may end inside a symbol.

Two matches of one expression that take the same number of opening brackets end at
the same place of the text, if what comes next can match there.
-/

import ShallowParse.Proofs.Regex.Assembly
import ShallowParse.Proofs.Symbols.Encoding

namespace ShallowParse

open SymbolText

/-! ### Places -/

/-- Where in the text of symbols a match may end. -/
inductive Place where
  | outside
  /-- After so many characters of a symbol. -/
  | inside (taken : Nat)
  /-- After any number of characters of a symbol. -/
  | tail

namespace Place

/-- Whether a part of the text of symbols begins at a place. -/
def Begins (symbols : List String) : Place → List Char → Prop
  | outside, text => ∃ rest, rest <:+ symbols ∧ text = written rest
  | inside taken, text => ∃ symbol rest, symbol :: rest <:+ symbols ∧
      text = (Symbol.encode symbol).drop taken ++ '>' :: written rest
  | tail, text => ∃ symbol rest, symbol :: rest <:+ symbols ∧
      ∃ left, left <:+ Symbol.encode symbol ∧ text = left ++ '>' :: written rest

theorem eq_of_suffixes {rest other symbols : List String} (suffix : rest <:+ symbols)
    (suffix' : other <:+ symbols) (sameLength : rest.length = other.length) : rest = other :=
  (List.suffix_of_suffix_length_le suffix suffix' (Nat.le_of_eq sameLength)).eq_of_length sameLength

/-- A place inside a symbol has an opening bracket for each symbol after it. -/
theorem count_inside {symbol : String} {left : List Char} (suffix : left <:+ Symbol.encode symbol)
    (rest : List String) : (left ++ '>' :: written rest).count '<' = rest.length := by
  have none : left.count '<' = 0 :=
    List.count_eq_zero.mpr fun member =>
      Symbol.not_mem_encode (by decide) symbol (suffix.subset member)
  rw [List.count_append, none, List.count_cons_of_ne (by decide), count_written, Nat.zero_add]

theorem eq_nil_of_head? {symbol : String} {left rest : List Char}
    (suffix : left <:+ Symbol.encode symbol) (atEnd : (left ++ '>' :: rest).head? = some '>') :
    left = [] := by
  cases left with
  | nil => rfl
  | cons char others =>
    obtain rfl : char = '>' := Option.some.inj atEnd
    exact absurd (suffix.subset List.mem_cons_self) (Symbol.not_mem_encode (by decide) symbol)

/-- Texts that begin at one place are the same if as many symbols begin in them. Of a place
anywhere inside a symbol this holds at its end. -/
theorem Begins.eq_of_count {symbols : List String} {place : Place} {text other : List Char}
    (begins : place.Begins symbols text) (begins' : place.Begins symbols other)
    (sameCount : text.count '<' = other.count '<')
    (atEnd : place = tail → text.head? = some '>' ∧ other.head? = some '>') : text = other := by
  cases place with
  | outside =>
    obtain ⟨rest, suffix, rfl⟩ := begins
    obtain ⟨rest', suffix', rfl⟩ := begins'
    rw [count_written, count_written] at sameCount
    rw [eq_of_suffixes suffix suffix' sameCount]
  | inside taken =>
    obtain ⟨symbol, rest, suffix, rfl⟩ := begins
    obtain ⟨symbol', rest', suffix', rfl⟩ := begins'
    rw [count_inside (List.drop_suffix _ _), count_inside (List.drop_suffix _ _)] at sameCount
    obtain ⟨rfl, rfl⟩ := List.cons.inj (eq_of_suffixes suffix suffix' (congrArg (· + 1) sameCount))
    rfl
  | tail =>
    obtain ⟨symbol, rest, suffix, left, isLeft, rfl⟩ := begins
    obtain ⟨symbol', rest', suffix', left', isLeft', rfl⟩ := begins'
    rw [count_inside isLeft, count_inside isLeft'] at sameCount
    obtain ⟨rfl, rfl⟩ := List.cons.inj (eq_of_suffixes suffix suffix' (congrArg (· + 1) sameCount))
    obtain ⟨atEnd, atEnd'⟩ := atEnd rfl
    rw [eq_nil_of_head? isLeft atEnd, eq_nil_of_head? isLeft' atEnd']

end Place

/-! ### Expressions from place to place -/

namespace Regex

open Place

/-- Whether an expression leads from one place to another. -/
inductive Moves : Place → Regex → Place → Prop
  | empty (place : Place) : Moves place empty place
  | opening : Moves outside (char '<') (inside 0)
  | letter (taken : Nat) {wanted : Char} (noClosing : wanted ≠ '>') :
    Moves (inside taken) (char wanted) (inside (taken + 1))
  | closing (taken : Nat) : Moves (inside taken) (char '>') outside
  | closingTail : Moves tail (char '>') outside
  | others (taken : Nat) : Moves (inside taken) (star (otherThan '>')) tail
  | seq {source middle target : Place} {first second : Regex} :
    Moves source first middle → Moves middle second target → Moves source (seq first second) target
  | alt {source target : Place} {first second : Regex} :
    Moves source first target → Moves source second target → Moves source (alt first second) target
  | star {body : Regex} : Moves outside body outside → Moves outside (star body) outside
  | repeated {body : Regex} (least : Nat) {most : Option Nat} (copies : most ≠ some 0) :
    Moves outside body outside → Moves outside (repeated body least most) outside

/-- The number of symbols that begin in every match of an expression, if it is the same for all. -/
def width? : Regex → Option Nat
  | empty => some 0
  | char wanted => some (if wanted = '<' then 1 else 0)
  | otherThan _ => some 0
  | seq first second => (first.width?).bind fun width => second.width?.map (width + ·)
  | alt first second => if first.width? = second.width? then first.width? else none
  | star body => if body.width? = some 0 then some 0 else none
  | repeated body least most =>
    body.width?.bind fun width =>
      if width = 0 then some 0 else if most = some least then some (least * width) else none

theorem begins_inside_zero {symbols : List String} {rest : List Char}
    (begins : outside.Begins symbols ('<' :: rest)) : (inside 0).Begins symbols rest := by
  obtain ⟨left, suffix, isWritten⟩ := begins
  cases left with
  | nil => cases isWritten
  | cons symbol others =>
    rw [written_cons, Symbol.bracketed_eq, List.cons_append, List.append_assoc] at isWritten
    exact ⟨symbol, others, suffix, (List.cons.inj isWritten).2⟩

theorem begins_inside_succ {symbols : List String} {taken : Nat} {wanted : Char} {rest : List Char}
    (begins : (inside taken).Begins symbols (wanted :: rest)) (noClosing : wanted ≠ '>') :
    (inside (taken + 1)).Begins symbols rest := by
  obtain ⟨symbol, others, suffix, parted⟩ := begins
  refine ⟨symbol, others, suffix, ?_⟩
  rw [← List.tail_drop]
  cases isLeft : (Symbol.encode symbol).drop taken with
  | nil =>
    rw [isLeft] at parted
    exact absurd (List.cons.inj parted).1 noClosing
  | cons first left =>
    rw [isLeft] at parted
    exact (List.cons.inj parted).2

theorem begins_tail {symbols : List String} {taken : Nat} {text : List Char}
    (begins : (inside taken).Begins symbols text) : tail.Begins symbols text := by
  obtain ⟨symbol, others, suffix, rfl⟩ := begins
  exact ⟨symbol, others, suffix, _, List.drop_suffix _ _, rfl⟩

theorem begins_outside {symbols : List String} {rest : List Char}
    (begins : tail.Begins symbols ('>' :: rest)) : outside.Begins symbols rest := by
  obtain ⟨symbol, others, suffix, left, isLeft, parted⟩ := begins
  have atEnd : (left ++ '>' :: written others).head? = some '>' := parted ▸ rfl
  rw [eq_nil_of_head? isLeft atEnd] at parted
  exact ⟨others, (List.suffix_cons symbol others).trans suffix, (List.cons.inj parted).2⟩

/-- The characters up to the end of a symbol hold no opening bracket. -/
theorem begins_of_mem_ways_others {symbols : List String} {text : List Char}
    (begins : tail.Begins symbols text) : ∀ rest ∈ (star (otherThan '>')).ways text,
      tail.Begins symbols rest ∧ text.count '<' = rest.count '<' := by
  obtain ⟨symbol, others, suffix, left, isLeft, rfl⟩ := begins
  have keeps : Ways.Keeps
      (fun rest => ∃ left, left <:+ Symbol.encode symbol ∧ rest = left ++ '>' :: written others)
      (otherThan '>').ways := by
    rintro text ⟨left, isLeft, rfl⟩ rest member
    obtain ⟨first, isOther, parted⟩ := Ways.exists_of_mem_single member
    cases left with
    | nil =>
      rw [(List.cons.inj parted).1.symm] at isOther
      simp at isOther
    | cons char left =>
      exact ⟨left, (List.suffix_cons char left).trans isLeft, (List.cons.inj parted).2.symm⟩
  intro rest member
  obtain ⟨left', isLeft', rfl⟩ := Ways.keeps_endless keeps _ ⟨left, isLeft, rfl⟩ rest member
  refine ⟨⟨symbol, others, suffix, left', isLeft', rfl⟩, ?_⟩
  rw [count_inside isLeft, count_inside isLeft']

theorem width?_alt {first second : Regex} {width : Nat}
    (isWidth : (Regex.alt first second).width? = some width) :
    first.width? = some width ∧ second.width? = some width := by
  rw [width?] at isWidth
  split at isWidth
  · rename_i same
    exact ⟨isWidth, same ▸ isWidth⟩
  · cases isWidth

/-- Copies between bounds are as wide as their number says, if it is certain or does not matter. -/
theorem width?_repeated {body : Regex} {least : Nat} {most : Option Nat} {width : Nat}
    (isWidth : (Regex.repeated body least most).width? = some width) :
    body.width? = some 0 ∧ width = 0 ∨
      ∃ each, body.width? = some each ∧ most = some least ∧ width = least * each := by
  obtain ⟨each, isEach, isWidth⟩ := Option.bind_eq_some_iff.mp isWidth
  split at isWidth
  · rename_i isZero
    exact Or.inl ⟨isZero ▸ isEach, (Option.some.inj isWidth).symm⟩
  · split at isWidth
    · rename_i certain
      exact Or.inr ⟨each, isEach, certain, (Option.some.inj isWidth).symm⟩
    · cases isWidth

/-- Whether the ways of an expression from one place lead to another, and take as many opening
brackets as the expression is wide. -/
def Lands (symbols : List String) (source : Place) (regex : Regex) (target : Place) : Prop :=
  ∀ text, source.Begins symbols text → ∀ rest ∈ regex.ways text, target.Begins symbols rest ∧
    ∀ width, regex.width? = some width → text.count '<' = rest.count '<' + width

namespace Lands

variable {symbols : List String} {source middle target : Place} {first second body : Regex}

theorem char {wanted : Char}
    (begins : ∀ rest, source.Begins symbols (wanted :: rest) → target.Begins symbols rest) :
    Lands symbols source (.char wanted) target := by
  intro text atSource rest member
  obtain ⟨first, isWanted, rfl⟩ := Ways.exists_of_mem_single member
  obtain rfl := of_decide_eq_true isWanted
  refine ⟨begins rest atSource, fun width isWidth => ?_⟩
  rw [← Option.some.inj isWidth, List.count_cons]
  simp only [beq_iff_eq]

theorem seq (ofFirst : Lands symbols source first middle)
    (ofSecond : Lands symbols middle second target) :
    Lands symbols source (.seq first second) target := by
  intro text atSource rest member
  obtain ⟨left, isLeft, isRest⟩ := List.mem_flatMap.mp member
  obtain ⟨atMiddle, countFirst⟩ := ofFirst text atSource left isLeft
  obtain ⟨atTarget, countSecond⟩ := ofSecond left atMiddle rest isRest
  refine ⟨atTarget, fun width isWidth => ?_⟩
  obtain ⟨firstWidth, isFirstWidth, isSum⟩ := Option.bind_eq_some_iff.mp isWidth
  obtain ⟨secondWidth, isSecondWidth, rfl⟩ := Option.map_eq_some_iff.mp isSum
  rw [countFirst _ isFirstWidth, countSecond _ isSecondWidth]
  omega

theorem alt (ofFirst : Lands symbols source first target)
    (ofSecond : Lands symbols source second target) :
    Lands symbols source (.alt first second) target := by
  intro text atSource rest member
  rcases List.mem_append.mp member with isFirst | isSecond
  · obtain ⟨atTarget, count⟩ := ofFirst text atSource rest isFirst
    exact ⟨atTarget, fun width isWidth => count width (width?_alt isWidth).1⟩
  · obtain ⟨atTarget, count⟩ := ofSecond text atSource rest isSecond
    exact ⟨atTarget, fun width isWidth => count width (width?_alt isWidth).2⟩

theorem keeps_begins (ofBody : Lands symbols source body source) :
    Ways.Keeps (source.Begins symbols) body.ways :=
  fun text begins rest member => (ofBody text begins rest member).1

/-- What is certain to take no opening bracket keeps their number. -/
theorem keeps_count (ofBody : Lands symbols source body source) (isZero : body.width? = some 0)
    (count : Nat) :
    Ways.Keeps (fun text => source.Begins symbols text ∧ count = text.count '<') body.ways := by
  rintro text ⟨begins, sameCount⟩ rest member
  obtain ⟨beginsRest, counts⟩ := ofBody text begins rest member
  exact ⟨beginsRest, sameCount.trans (counts 0 isZero)⟩

theorem star (ofBody : Lands symbols source body source) :
    Lands symbols source (.star body) source := by
  intro text begins rest member
  refine ⟨Ways.keeps_endless ofBody.keeps_begins text begins rest member, fun width isWidth => ?_⟩
  rw [width?] at isWidth
  split at isWidth
  · rename_i isZero
    rw [← Option.some.inj isWidth]
    exact (Ways.keeps_endless (ofBody.keeps_count isZero _) text ⟨begins, rfl⟩ rest member).2
  · cases isWidth

theorem repeated (ofBody : Lands symbols source body source) (least : Nat) (most : Option Nat) :
    Lands symbols source (.repeated body least most) source := by
  intro text begins rest member
  refine ⟨Ways.keeps_repeated ofBody.keeps_begins least most text begins rest member,
    fun width isWidth => ?_⟩
  rcases width?_repeated isWidth with ⟨isZero, rfl⟩ | ⟨each, isEach, rfl, rfl⟩
  · have keepsCount := ofBody.keeps_count isZero (text.count '<')
    exact (Ways.keeps_repeated keepsCount least most text ⟨begins, rfl⟩ rest member).2
  · obtain ⟨left, isLeft, isRest⟩ := List.mem_flatMap.mp member
    have noMore : Option.map (· - least) (some least) = some 0 :=
      congrArg some (Nat.sub_self least)
    rw [noMore] at isRest
    obtain rfl := List.mem_singleton.mp isRest
    exact Ways.amount_of_mem_copies (fun text begins rest member =>
      (ofBody text begins rest member).imp_right fun counts => counts each isEach) least text begins
      rest isLeft

end Lands

/-- An expression that leads from one place to another does so with each of its ways. -/
theorem Moves.lands {source target : Place} {regex : Regex} (moves : Moves source regex target)
    (symbols : List String) : Lands symbols source regex target := by
  induction moves with
  | empty place =>
    intro text begins rest member
    obtain rfl := List.mem_singleton.mp member
    exact ⟨begins, fun width isWidth => Option.some.inj isWidth ▸ rfl⟩
  | opening => exact .char fun rest begins => begins_inside_zero begins
  | letter taken noClosing => exact .char fun rest begins => begins_inside_succ begins noClosing
  | closing taken => exact .char fun rest begins => begins_outside (begins_tail begins)
  | closingTail => exact .char fun rest begins => begins_outside begins
  | others taken =>
    intro text begins rest member
    obtain ⟨beginsRest, sameCount⟩ := begins_of_mem_ways_others (begins_tail begins) rest member
    refine ⟨beginsRest, fun width isWidth => ?_⟩
    rw [sameCount, ← Option.some.inj isWidth, Nat.add_zero]
  | seq ofFirst ofSecond inFirst inSecond => exact inFirst.seq inSecond
  | alt ofFirst ofSecond inFirst inSecond => exact inFirst.alt inSecond
  | star ofBody inBody => exact inBody.star
  | repeated least copies ofBody inBody => exact inBody.repeated least _

/-! ### The end of a symbol -/

/-- From anywhere inside a symbol a way takes nothing, or the symbol ends here. -/
theorem Moves.from_tail {source target : Place} {regex : Regex} (moves : Moves source regex target)
    (fromTail : source = tail) (text : List Char) :
    ∀ rest ∈ regex.ways text, target = tail ∧ rest = text ∨ text.head? = some '>' := by
  induction moves generalizing text with
  | empty place => exact fun rest member => Or.inl ⟨fromTail, List.mem_singleton.mp member⟩
  | opening => cases fromTail
  | letter taken noClosing => cases fromTail
  | closing taken => cases fromTail
  | closingTail =>
    intro rest member
    obtain ⟨first, isWanted, rfl⟩ := Ways.exists_of_mem_single member
    exact Or.inr (congrArg some (of_decide_eq_true isWanted))
  | others taken => cases fromTail
  | seq ofFirst ofSecond inFirst inSecond =>
    intro rest member
    obtain ⟨middle, isMiddle, isRest⟩ := List.mem_flatMap.mp member
    rcases inFirst fromTail text middle isMiddle with ⟨toTail, rfl⟩ | atEnd
    · exact inSecond toTail middle rest isRest
    · exact Or.inr atEnd
  | alt ofFirst ofSecond inFirst inSecond =>
    intro rest member
    rcases List.mem_append.mp member with isFirst | isSecond
    · exact inFirst fromTail text rest isFirst
    · exact inSecond fromTail text rest isSecond
  | star ofBody inBody => cases fromTail
  | repeated least copies ofBody inBody => cases fromTail

/-- Matches of a common beginning end at the same place if they take as many opening brackets and
one of the rests can match there. -/
theorem Moves.eq_of_goesOn {source middle : Place} {beginning : Regex} {rests : List Regex}
    (moves : Moves source beginning middle)
    (restsMove : ∀ rest ∈ rests, Moves middle rest outside)
    {width : Nat} (isWidth : beginning.width? = some width) {symbols : List String}
    {text left left' : List Char} (begins : source.Begins symbols text)
    (isLeft : left ∈ beginning.ways text) (isLeft' : left' ∈ beginning.ways text)
    (goesOn : ∃ rest ∈ rests, rest.ways left ≠ [])
    (goesOn' : ∃ rest ∈ rests, rest.ways left' ≠ []) : left = left' := by
  have atEnd {text : List Char} (goesOn : ∃ rest ∈ rests, rest.ways text ≠ [])
      (fromTail : middle = tail) : text.head? = some '>' := by
    obtain ⟨rest, isRest, goes⟩ := goesOn
    obtain ⟨end', member⟩ := List.exists_mem_of_ne_nil _ goes
    refine ((restsMove rest isRest).from_tail fromTail text end' member).resolve_left ?_
    rintro ⟨impossible, _⟩
    cases impossible
  obtain ⟨beginsLeft, count⟩ := moves.lands symbols text begins left isLeft
  obtain ⟨beginsLeft', count'⟩ := moves.lands symbols text begins left' isLeft'
  refine beginsLeft.eq_of_count beginsLeft' ?_ fun fromTail =>
    ⟨atEnd goesOn fromTail, atEnd goesOn' fromTail⟩
  exact Nat.add_right_cancel ((count width isWidth).symm.trans (count' width isWidth))

end Regex

end ShallowParse
