import RuleFormula.Formula.Basic
import RuleFormula.Text.Quoted

/-!
# Formulas in reports

A formula in a report is given by its kind and its quoted name, and a layer by its kind and the
results of its operands.
-/

namespace RuleFormula

open Text

/-- The name of an atom and whether it may be negated. -/
def Atom.debugText (a : Atom) : String :=
  "Atomic \x7b name: " ++ quoted a.name ++ ", negatable: " ++ toString a.negatable ++ " \x7d"

namespace Formula

/-- What a formula is at its root. -/
def kind : Formula → String
  | top => "True"
  | bot => "False"
  | undef => "Undefined"
  | atom _ => "Atomic"
  | not _ => "Not"
  | and _ => "And"
  | or _ => "Or"
  | group _ => "Parentheses"

/-- The kind and the quoted name. -/
def debugText (p : Formula) : String := p.kind ++ "(" ++ quoted p.name ++ ")"

end Formula

namespace Layer

/-- Results in brackets, joined by commas. -/
def listText {β : Type} (write : β → String) (xs : List β) : String :=
  "[" ++ ", ".intercalate (xs.map write) ++ "]"

/-- The kind of a node and what stands in the place of its operands. -/
def debugText {β : Type} (write : β → String) : Layer β → String
  | top => "True"
  | bot => "False"
  | undef => "Undefined"
  | atom a => "Atomic(" ++ a.debugText ++ ")"
  | not x => "Not(" ++ write x ++ ")"
  | and xs => "And(" ++ listText write xs ++ ")"
  | or xs => "Or(" ++ listText write xs ++ ")"
  | group x => "Parentheses(" ++ write x ++ ")"

end Layer

end RuleFormula
