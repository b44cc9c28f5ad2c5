/-!
# Faults

An operation that is used outside its domain ends in a fault: it gives no value and leaves every
set, formula and memo entry as it was. `Fault.message` words each cause. A fault is not an error
value: it ends all the computations it passes through, where an error is handed to the caller.
-/

namespace RuleFormula

/-- The causes for which an operation gives no value. -/
inductive Fault
  | emptyConjunction
  | emptyDisjunction
  | undefinedTested
  /-- A bit past the end of a bitmap was to be set. -/
  | indexOutOfRange (index size : Nat)
  /-- A bitmap was to be made of too few or too many words. -/
  | wordCount (size : Nat)
  | sizesDiffer
  /-- A test or a computation supplied from outside gave up, with a text of its own. -/
  | raised (text : String)
deriving DecidableEq, Repr

namespace Fault

/-- The wording of each cause. -/
def message : Fault → String
  | emptyConjunction => "AND requires at least one operand"
  | emptyDisjunction => "OR requires at least one operand"
  | undefinedTested => "cannot test an undefined predicate"
  | indexOutOfRange index size => s!"index {index} out of range 0..{size}"
  | wordCount size => s!"word count does not match size {size}"
  | sizesDiffer => "bit set sizes differ"
  | raised text => text

end Fault

end RuleFormula
