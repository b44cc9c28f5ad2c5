/-!
# Keywords

The fixed words and signs in which formulas and rules are written.
-/

namespace RuleFormula

/-- The fixed words and signs. -/
inductive Keyword
  | and
  | or
  | not
  | true
  | false
  | leftParen
  | rightParen
  | implies
deriving DecidableEq, Repr

namespace Keyword

/-- All keywords. -/
def all : List Keyword := [and, or, not, true, false, leftParen, rightParen, implies]

/-- How a keyword is written. -/
def text : Keyword → String
  | and => "AND"
  | or => "OR"
  | not => "NOT"
  | true => "TRUE"
  | false => "FALSE"
  | leftParen => "("
  | rightParen => ")"
  | implies => "=>"

/-- The keyword that is written so, if there is one. -/
def ofText? (text : List Char) : Option Keyword := all.find? fun k => k.text.toList = text

/-- Each keyword is read from its own writing only. -/
theorem ofText?_eq_some_iff {text : List Char} {k : Keyword} :
    ofText? text = some k ↔ text = k.text.toList := by
  constructor
  · intro h
    have written := List.find?_some h
    simp only [decide_eq_true_eq] at written
    exact written.symm
  · rintro rfl
    cases k <;> decide

end Keyword

end RuleFormula
