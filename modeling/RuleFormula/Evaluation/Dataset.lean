/-!
# Datasets

A list of items with an identity. Results are remembered by identity and never by content: two
datasets of equal items are unrelated, while copies of one dataset share their results.
-/

namespace RuleFormula

/-- Items with an identity. -/
structure Dataset (α : Type) where
  /-- The number that tells the dataset from those made elsewhere. -/
  id : Nat
  items : List α
deriving DecidableEq, Repr

namespace Dataset

variable {α : Type}

/-- The number of items. -/
def size (d : Dataset α) : Nat := d.items.length

/-- Whether there are no items. -/
def isEmpty (d : Dataset α) : Bool := d.items.isEmpty

/-- The identity, as `label` writes it, and the number of items. -/
def debugText (label : Nat → String) (d : Dataset α) : String :=
  "Dataset \x7b id: DatasetId(" ++ label d.id ++ "), len: " ++ toString d.size ++ " \x7d"

end Dataset

end RuleFormula
