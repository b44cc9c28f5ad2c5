import RuleFormula.Fault
import RuleFormula.Formula.Basic

/-!
# Truth of a formula on one item

`Formula.test` asks the tests of the atoms in the order in which the formula is written, and asks no
more than it has to: a conjunction ends at the first operand that fails, a disjunction at the first
that holds. How an atom is asked is left open, in any monad that knows faults, so that a caller may
also keep a log of the atoms asked.
-/

namespace RuleFormula

/-- How atoms are tested on items of `α`: a test gives a truth value or ends by a fault. -/
abbrev Interpretation (α : Type) := Atom → α → Except Fault Bool

namespace Formula

variable {m : Type → Type} [Monad m] [MonadExceptOf Fault m]

mutual

/-- The truth value of a formula, given how to ask an atom. The undefined formula must not be
tested. -/
def test (ask : Atom → m Bool) : Formula → m Bool
  | top => pure true
  | bot => pure false
  | undef => throwThe Fault .undefinedTested
  | atom a => ask a
  | not p => do
    let holds ← test ask p
    pure !holds
  | and ps => testAll ask ps
  | or ps => testAny ask ps
  | group p => test ask p

/-- Whether all operands hold, asked from left to right up to the first that fails. -/
def testAll (ask : Atom → m Bool) : List Formula → m Bool
  | [] => pure true
  | p :: ps => do
    let holds ← test ask p
    if holds then testAll ask ps else pure false

/-- Whether some operand holds, asked from left to right up to the first that does. -/
def testAny (ask : Atom → m Bool) : List Formula → m Bool
  | [] => pure false
  | p :: ps => do
    let holds ← test ask p
    if holds then pure true else testAny ask ps

end

end Formula

end RuleFormula
