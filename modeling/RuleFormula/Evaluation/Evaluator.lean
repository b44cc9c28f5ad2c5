import RuleFormula.Evaluation.Config
import RuleFormula.Evaluation.Request

/-!
# Evaluators

An evaluator answers requests for bitmaps and remembers the results up to its capacity. Evaluating
gives the bitmap of the items of a dataset that satisfy a formula, or says that the formula has
none, or ends by the fault of a test; what was remembered by then stays remembered.
-/

namespace RuleFormula

/-- Settings and remembered results. -/
structure Evaluator where
  config : Config
  memo : Memo Evaluation.Key Bitmap

namespace Evaluator

/-- An evaluator that remembers nothing yet. -/
def new (config : Config) : Evaluator := ⟨config, .new config.capacity config.capacity_pos⟩

/-- The bitmap of the items of a dataset that satisfy a formula. A fault of a test ends the call. -/
def test {α : Type} (e : Evaluator) (tests : Interpretation α) (p : Formula) (d : Dataset α) :
    Outcome EvalError Evaluated × Evaluator :=
  let (outcome, memo) := (Evaluation.request (Evaluation.noted tests) d p).answer e.memo
  (outcome, { e with memo })

/-- Forgets all results. -/
def clear (e : Evaluator) : Evaluator := { e with memo := e.memo.clear }

end Evaluator

end RuleFormula
