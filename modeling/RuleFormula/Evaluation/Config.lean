/-!
# Settings of an evaluator

The number of worker threads, of which there is at least one, and the number of results that are
remembered. The threads share the work on one atom; the results do not depend on how many there are.
-/

namespace RuleFormula

/-- Settings of an evaluator. -/
structure Config where
  threads : Nat
  capacity : Nat
  capacity_pos : 0 < capacity

namespace Config

/-- Settings with a number of threads and room for 1024 results. -/
def withThreads (threads : Nat) : Config := ⟨max threads 1, 1024, by decide⟩

/-- Settings with another capacity. -/
def withCapacity (c : Config) (capacity : Nat) (capacity_pos : 0 < capacity) : Config :=
  ⟨c.threads, capacity, capacity_pos⟩

/-- The settings, field by field. -/
def debugText (c : Config) : String :=
  "EvalConfig \x7b threads: " ++ toString c.threads ++ ", cache_capacity: " ++
    toString c.capacity ++ " \x7d"

end Config

end RuleFormula
