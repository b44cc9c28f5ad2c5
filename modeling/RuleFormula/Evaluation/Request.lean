import RuleFormula.Bitmap.Packed
import RuleFormula.Evaluation.Dataset
import RuleFormula.Formula.Truth
import RuleFormula.Memo.Computation

/-!
# What it takes to evaluate a formula over a dataset

The bitmap of a formula over a dataset has the positions of the items that satisfy it. Atoms are
tested item by item; the other nodes combine the bitmaps of their operands. The bitmap of every node
that is no constant and no group is kept in a memo under the formula and the identity of the
dataset: a group has the bitmap of what it groups.

The items are tested by the workers of the evaluator while the computation of the atom waits. Each
call of a test is noted (`noted`), and the positions of the items that were tested are written down
as the work that was done. A conjunction stops at the operand after which no item is left; a
disjunction takes all its operands. `Request.run_andThen` says that a computation which goes on with
a bitmap has that bitmap first.
-/

namespace RuleFormula

/-- Why a formula has no bitmap. -/
inductive EvalError
  | undefined
deriving DecidableEq, Repr

/-- The wording of each cause. -/
def EvalError.message : EvalError → String
  | undefined => "cannot evaluate an undefined predicate"

/-- A bitmap that was asked for: made for this call, or shared with other calls. -/
inductive Evaluated
  | fresh (bits : Bitmap)
  | shared (result : Shared Bitmap)
deriving DecidableEq, Repr

/-- The bitmap itself. -/
def Evaluated.bits : Evaluated → Bitmap
  | fresh bits => bits
  | shared result => result.value

namespace Evaluation

/-- Results are remembered by formula and by the identity of the dataset. The complexity of the
formula stands first, so that most keys are told apart without a look at their formulas. -/
structure Key where
  complexity : Nat
  formula : Formula
  /-- The identity of the dataset. -/
  dataset : Nat
  complexity_eq : complexity = formula.complexity
deriving DecidableEq

/-- The key of a formula over a dataset. -/
def Key.of (p : Formula) (dataset : Nat) : Key := ⟨p.complexity, p, dataset, rfl⟩

/-- How the bitmap of a node is computed. -/
abbrev Work := Computation Key Bitmap EvalError

/-- What it takes to have the bitmap of a formula. -/
inductive Request
  | undefined
  /-- It is at hand, and not remembered. -/
  | constant (bits : Bitmap)
  /-- The memo has it, or it is computed. -/
  | node (key : Key) (body : Unit → Work)

namespace Request

/-- Has the bitmap of a formula, with the help of a memo. -/
def answer : Request → Memo Key Bitmap → Outcome EvalError Evaluated × Memo Key Bitmap
  | undefined, m => (.returned (.error .undefined), m)
  | constant bits, m => (.returned (.ok (.fresh bits)), m)
  | node key body, m =>
    match m.get key body with
    | (.returned result, m) => (.returned (result.map .shared), m)
    | (.aborted fault, m) => (.aborted fault, m)

/-- Goes on with the bitmap of a formula. -/
def andThen (next : Bitmap → Work) : Request → Work
  | undefined => .done (.error .undefined)
  | constant bits => next bits
  | node key body => .get key body fun
    | .returned (.ok shared) => next shared.value
    | .returned (.error e) => .done (.error e)
    | .aborted fault => .abort fault

/-- A computation that goes on with a bitmap has the bitmap first. -/
theorem run_andThen (r : Request) (next : Bitmap → Work) (m : Memo Key Bitmap) :
    (r.andThen next).run m =
      match r.answer m with
      | (.returned (.ok result), m) => (next result.bits).run m
      | (.returned (.error e), m) => (.returned (.error e), m)
      | (.aborted fault, m) => (.aborted fault, m) := by
  cases r with
  | undefined => rfl
  | constant bits => rfl
  | node key body =>
    simp only [andThen, Computation.run, answer, Memo.get]
    cases m.getWith key fun m => (body ()).run m with
    | mk outcome m =>
      cases outcome with
      | aborted fault => rfl
      | returned result => cases result <;> rfl

end Request

/-- Ends with a bitmap, or by the fault that stood in its place. -/
def ofFault : Except Fault Bitmap → Work
  | .ok bits => .done (.ok bits)
  | .error fault => .abort fault

/-- Tests of atoms that note the positions of the items that they are shown. -/
abbrev NotedTests (α : Type) := Atom → α × Nat → Bitmap.Watched Nat Bool

/-- Tests of atoms as they are used in an evaluation: each call of a test is noted. -/
def noted {α : Type} (tests : Interpretation α) : NotedTests α :=
  fun a => Bitmap.watch Prod.snd fun x => tests a x.1

variable {α : Type} (ask : NotedTests α) (d : Dataset α)

mutual

/-- What it takes to have the bitmap of a formula over a dataset. -/
def request : Formula → Request
  | .top => .constant (.full d.size)
  | .bot => .constant (.empty d.size)
  | .undef => .undefined
  | .atom a => .node (.of (.atom a) d.id) fun _ =>
    let tested := Bitmap.ofTestsNoted (ask a) d.items
    .await (.of (.atom a) d.id) tested.2 (ofFault tested.1)
  | .not p => .node (.of (.not p) d.id) fun _ =>
    (request p).andThen fun bits => .done (.ok bits.compl)
  | .and ps => .node (.of (.and ps) d.id) fun _ => meet ps (.full d.size)
  | .or ps => .node (.of (.or ps) d.id) fun _ => join ps (.empty d.size)
  | .group p => request p

/-- Intersects the bitmaps of operands with what is left so far, until nothing is left. -/
def meet : List Formula → Bitmap → Work
  | [], sofar => .done (.ok sofar)
  | p :: ps, sofar => (request p).andThen fun bits =>
    match sofar.inter bits with
    | .error fault => .abort fault
    | .ok both => if both.isEmpty then .done (.ok both) else meet ps both

/-- Unites the bitmaps of operands with what was found so far. -/
def join : List Formula → Bitmap → Work
  | [], sofar => .done (.ok sofar)
  | p :: ps, sofar => (request p).andThen fun bits =>
    match sofar.union bits with
    | .error fault => .abort fault
    | .ok either => join ps either

end

end Evaluation

end RuleFormula
