/-
This file reads the body of a tag class, which is what stands between angle
brackets: tags parted by bars. A tag that ends in `.*` stands for all symbols
that begin with what comes before. Blanks are ignored, and a backslash takes
away every special meaning of the character after it.

Other signs of regular expressions are refused, so that no one takes a class for
more than it is.
-/

import ShallowParse.Pattern.Printer

namespace ShallowParse

/-- What is wrong with the body of a tag class. -/
inductive TagClass.Fault where
  | danglingEscape (body : String)
  | unsupported (char : Char) (body : String)
  | emptyTag (body : String)
deriving DecidableEq

def TagClass.Fault.message : TagClass.Fault → String
  | danglingEscape body => "dangling escape in <" ++ body ++ ">"
  | unsupported char body =>
    "unsupported '" ++ String.singleton char ++ "' in <" ++ body ++
      ">: only a trailing .* wildcard is allowed"
  | emptyTag body => "empty tag in <" ++ body ++ ">"

namespace TagClass

/-- A character of a body, and whether a backslash stands before it. -/
structure Sign where
  char : Char
  isEscaped : Bool
deriving DecidableEq

/-! ### Signs -/

/-- The signs of a body without its blanks, or `none` where a backslash ends it. -/
def signs? : List Char → Option (List Sign)
  | [] => some []
  | ['\\'] => none
  | '\\' :: char :: rest => (signs? rest).map (⟨char, true⟩ :: ·)
  | char :: rest =>
    if Text.isBlank char then signs? rest else (signs? rest).map (⟨char, false⟩ :: ·)

def bar : Sign := ⟨'|', false⟩

/-- The runs of signs between the bars, of which there is always one. -/
def parts : List Sign → List (List Sign)
  | [] => [[]]
  | sign :: rest =>
    if sign = bar then [] :: parts rest
    else
      match parts rest with
      | part :: others => (sign :: part) :: others
      | [] => [[sign]]

/-! ### Alternatives -/

/-- The two signs that end a stem. -/
def wildcard : List Sign := [⟨'.', false⟩, ⟨'*', false⟩]

/-- The signs before a trailing wildcard, or `none` where there is no wildcard. -/
def stem? (part : List Sign) : Option (List Sign) :=
  if wildcard.isSuffixOf part then some (part.take (part.length - wildcard.length)) else none

/-- A sign that would mean something in a regular expression. -/
def Sign.isUnsupported (sign : Sign) : Bool :=
  !sign.isEscaped && Pattern.isMetachar sign.char

def tagOf (signs : List Sign) : String :=
  String.ofList (signs.map Sign.char)

/-- The test that one part of a body stands for. -/
def alternative (body : String) (part : List Sign) : Except Fault Pattern :=
  let signs := (stem? part).getD part
  match signs.find? Sign.isUnsupported with
  | some sign => .error (.unsupported sign.char body)
  | none =>
    if (stem? part).isSome then .ok (.startingWith (tagOf signs))
    else if signs.isEmpty then .error (.emptyTag body)
    else .ok (.exactly (tagOf signs))

/-- The pattern that a body stands for. -/
def read (body : String) : Except Fault Pattern :=
  match signs? body.toList with
  | none => .error (.danglingEscape body)
  | some signs => ((parts signs).mapM (alternative body)).map Pattern.anyOf

end TagClass

end ShallowParse
