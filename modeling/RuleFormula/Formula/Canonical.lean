import RuleFormula.Fault
import RuleFormula.Formula.Basic

/-!
# Canonical formulas

The operations that combine formulas and bring the result into canonical shape:

* an undefined operand makes the result undefined;
* operands that are themselves of the connective give theirs; a disjunction inside a conjunction is
  grouped, and other groups are dropped;
* neutral constants are dropped, and an absorbing constant takes over;
* one operand that is left is the result, and none gives the neutral constant;
* operands are sorted by name, and by the numbers of their atoms where names are equal.

A negation does not go into a conjunction or disjunction: it is put in front of the grouped node.
-/

namespace RuleFormula

namespace Formula

/-- Groups a conjunction or disjunction; other formulas need no parentheses. -/
def grouped : Formula → Formula
  | and ps => group (and ps)
  | or ps => group (or ps)
  | p => p

/-- Takes one pair of parentheses away. -/
def ungrouped : Formula → Formula
  | group p => p
  | p => p

/-- The numbers of the atoms from left to right. -/
def leafIds (p : Formula) : List Nat := p.leaves.map (·.id)

/-- Whether `p` may stand before `q` among sorted operands: its name comes first, or else the names
are equal and the numbers of its atoms do not come later. -/
def precedes (p q : Formula) : Bool :=
  decide (p.name < q.name) || (p.name == q.name && !decide (q.leafIds < p.leafIds))

/-- Operands in canonical order. Equal ones keep their order. -/
def sortOperands (ps : List Formula) : List Formula := ps.mergeSort precedes

/-- A node over sorted operands where there are two or more; else the one operand, or the neutral
constant. -/
def assemble (node : List Formula → Formula) (neutral : Formula) : List Formula → Formula
  | [] => neutral
  | [p] => p
  | ps => node (sortOperands ps)

/-- What an operand contributes to a conjunction. -/
def conjuncts : Formula → List Formula
  | top => []
  | and ps => ps
  | group (and ps) => ps
  | group p => [p.grouped]
  | p => [p.grouped]

/-- What an operand without parentheses around it contributes to a disjunction. -/
def disjunctsUngrouped : Formula → List Formula
  | bot => []
  | or ps => ps
  | p => [p]

/-- What an operand contributes to a disjunction. -/
def disjuncts (p : Formula) : List Formula := disjunctsUngrouped p.ungrouped

/-- The conjunction of formulas; of none, the constant that holds of every item. -/
def conj (ps : List Formula) : Formula :=
  if ps.any (!·.isDefined) then undef
  else
    let flat := ps.flatMap conjuncts
    if bot ∈ flat then bot else assemble and top flat

/-- The disjunction of formulas; of none, the constant that holds of no item. -/
def disj (ps : List Formula) : Formula :=
  if ps.any (!·.isDefined) then undef
  else
    let flat := ps.flatMap disjuncts
    if top ∈ flat then top else assemble or bot flat

/-- The conjunction of one formula or more. -/
def conjAll (ps : List Formula) : Except Fault Formula :=
  if ps.isEmpty then .error .emptyConjunction else .ok (conj ps)

/-- The disjunction of one formula or more. -/
def disjAll (ps : List Formula) : Except Fault Formula :=
  if ps.isEmpty then .error .emptyDisjunction else .ok (disj ps)

/-- The negation of a formula; undefined where the formula cannot be negated. A second negation
takes the first away, with the parentheses that it needed. -/
def negate (p : Formula) : Formula :=
  if p.canNegate then
    match p with
    | top => bot
    | bot => top
    | undef => undef
    | atom a => not (atom a)
    | not q => q.ungrouped
    | and ps => not (group (and ps))
    | or ps => not (group (or ps))
    | group q => (negate q).grouped
  else undef

/-- A conjunction or disjunction without the operand at an index, in canonical shape; nothing where
there is no such operand. -/
def remove? (p : Formula) (index : Nat) : Option Formula :=
  match p with
  | and ps => if index < ps.length then some (conj (ps.eraseIdx index)) else none
  | or ps => if index < ps.length then some (disj (ps.eraseIdx index)) else none
  | _ => none

instance : AndOp Formula := ⟨fun p q => conj [p, q]⟩

instance : OrOp Formula := ⟨fun p q => disj [p, q]⟩

instance : Complement Formula := ⟨negate⟩

end Formula

end RuleFormula
