import RuleFormula.Evaluation.Evaluator
import RuleFormula.Memo.Machine

/-!
# Threads that evaluate

Several threads may use one evaluator at a time. A thread works off a list of tasks, and the tasks
that need the memo are calls in the sense of `Machine`: an evaluation whose bitmap is at hand, or
that has none, takes no step.
-/

namespace RuleFormula

namespace Evaluation

/-- What a thread does with an evaluator. -/
inductive Task (α : Type)
  | test (p : Formula) (d : Dataset α)
  | clear

/-- The calls that a task makes. -/
def Task.calls {α : Type} (tests : Interpretation α) :
    Task α → List (Machine.Call Key Bitmap EvalError)
  | test p d =>
    match request (noted tests) d p with
    | .node key body => [.get key body]
    | _ => []
  | clear => [.clear]

/-- A task asks for a node only to evaluate a formula that is kept under the key of this node. -/
theorem Task.request_of_mem_calls {α : Type} {tests : Interpretation α} {t : Task α} {key : Key}
    {body : Unit → Work} (h : .get key body ∈ t.calls tests) :
    ∃ p d, t = .test p d ∧ request (noted tests) d p = .node key body := by
  cases t with
  | clear => cases List.mem_singleton.1 h
  | test p d =>
    refine ⟨p, d, rfl, ?_⟩
    rw [calls] at h
    cases hr : request (noted tests) d p with
    | undefined =>
      rw [hr] at h
      exact absurd h List.not_mem_nil
    | constant bits =>
      rw [hr] at h
      exact absurd h List.not_mem_nil
    | node key' body' =>
      rw [hr] at h
      cases List.mem_singleton.1 h
      rfl

end Evaluation

/-- The threads of an evaluator at the beginning of their tasks. -/
def Evaluator.machine {α : Type} (e : Evaluator) (tests : Interpretation α)
    (threads : List (List (Evaluation.Task α))) : Machine Evaluation.Key Bitmap EvalError :=
  .start e.memo (threads.map fun tasks => tasks.flatMap (·.calls tests))

end RuleFormula
