/-
This file defines rules: patterns with the label of the phrases they build.
-/

import ShallowParse.Pattern.Printer

namespace ShallowParse

structure Rule where
  label : String
  pattern : Pattern
deriving DecidableEq, Inhabited

namespace Rule

/-- A rule in rule notation, such as `NP: {<DT>?<NN.*>+}`. -/
def written (rule : Rule) : String :=
  rule.label ++ ": \x7b" ++ rule.pattern.written ++ "\x7d"

instance : ToString Rule := ⟨written⟩

end Rule

end ShallowParse
