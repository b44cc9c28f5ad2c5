import RuleFormula.Bitmap.Basic
import RuleFormula.Bitmap.Cursor
import RuleFormula.Bitmap.InPlace
import RuleFormula.Bitmap.Lemmas
import RuleFormula.Bitmap.Packed
import RuleFormula.Bitmap.Text
import RuleFormula.Evaluation.Config
import RuleFormula.Evaluation.Dataset
import RuleFormula.Evaluation.Evaluator
import RuleFormula.Evaluation.Request
import RuleFormula.Evaluation.Threads
import RuleFormula.Fault
import RuleFormula.Formula.Basic
import RuleFormula.Formula.Canonical
import RuleFormula.Formula.Debug
import RuleFormula.Formula.Truth
import RuleFormula.Keyword
import RuleFormula.Memo.Basic
import RuleFormula.Memo.Computation
import RuleFormula.Memo.Machine
import RuleFormula.Proofs.Bitmap.Members
import RuleFormula.Proofs.Bitmap.Operations
import RuleFormula.Proofs.Bitmap.Packing
import RuleFormula.Proofs.Bitmap.Runs
import RuleFormula.Proofs.Bitmap.Shown
import RuleFormula.Proofs.Bitmap.Walk
import RuleFormula.Proofs.Evaluation.Batch
import RuleFormula.Proofs.Evaluation.Chunkwise
import RuleFormula.Proofs.Evaluation.ComputedOnce
import RuleFormula.Proofs.Evaluation.Concurrent
import RuleFormula.Proofs.Evaluation.Deadlock
import RuleFormula.Proofs.Evaluation.Expected
import RuleFormula.Proofs.Formula.Complexity
import RuleFormula.Proofs.Formula.Connectives
import RuleFormula.Proofs.Formula.Constructible
import RuleFormula.Proofs.Formula.Flattening
import RuleFormula.Proofs.Formula.Identity
import RuleFormula.Proofs.Formula.LeafCount
import RuleFormula.Proofs.Formula.Leaves
import RuleFormula.Proofs.Formula.Meaning
import RuleFormula.Proofs.Formula.Negation
import RuleFormula.Proofs.Formula.Normal
import RuleFormula.Proofs.Formula.Order
import RuleFormula.Proofs.Formula.Pieces
import RuleFormula.Proofs.Formula.Rebuilding
import RuleFormula.Proofs.Formula.Regrouping
import RuleFormula.Proofs.Formula.Removal
import RuleFormula.Proofs.Formula.StoredName
import RuleFormula.Proofs.Formula.Unambiguous
import RuleFormula.Proofs.Memo.CallLaw
import RuleFormula.Proofs.Memo.Contracts
import RuleFormula.Proofs.Memo.Delivery
import RuleFormula.Proofs.Memo.Descent
import RuleFormula.Proofs.Memo.Endings
import RuleFormula.Proofs.Memo.History
import RuleFormula.Proofs.Memo.InFlight
import RuleFormula.Proofs.Memo.Once
import RuleFormula.Proofs.Memo.Owners
import RuleFormula.Proofs.Memo.Provenance
import RuleFormula.Proofs.Memo.Recency
import RuleFormula.Proofs.Memo.Retention
import RuleFormula.Proofs.Memo.SecondCell
import RuleFormula.Proofs.Memo.Sharing
import RuleFormula.Proofs.Memo.Specified
import RuleFormula.Proofs.Memo.Steps
import RuleFormula.Proofs.Reading.Brackets
import RuleFormula.Proofs.Reading.Closure
import RuleFormula.Proofs.Reading.Composition
import RuleFormula.Proofs.Reading.Derived
import RuleFormula.Proofs.Reading.Elsewhere
import RuleFormula.Proofs.Reading.Failure
import RuleFormula.Proofs.Reading.Grammar
import RuleFormula.Proofs.Reading.Lexemes
import RuleFormula.Proofs.Reading.Names
import RuleFormula.Proofs.Reading.OwnName
import RuleFormula.Proofs.Reading.Partition
import RuleFormula.Proofs.Reading.Printed
import RuleFormula.Proofs.Reading.RoundTrip
import RuleFormula.Proofs.Reading.Scan
import RuleFormula.Proofs.Reading.Sides
import RuleFormula.Proofs.Reading.Tokens
import RuleFormula.Proofs.Reading.Univocal
import RuleFormula.Proofs.Reading.Unmatched
import RuleFormula.Proofs.Reading.Viable
import RuleFormula.Reading.Expression
import RuleFormula.Reading.Lemmas
import RuleFormula.Reading.Resolver
import RuleFormula.Reading.Rule
import RuleFormula.Reading.Token
import RuleFormula.Text.Blank
import RuleFormula.Text.Printable
import RuleFormula.Text.Quoted
