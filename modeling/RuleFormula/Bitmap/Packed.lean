import RuleFormula.Bitmap.Basic

/-!
# Packing tests into words

The items of a list are tested in chunks of 64, and the results of each chunk are folded into one
word. The words make the same bitmap as the results one after the other (`Bitmap.ofBools`), and can
be computed chunk by chunk. The test may act in any monad, so that it can be watched while it works
(`Bitmap.watch`).
-/

namespace RuleFormula

namespace Bitmap

/-- Cuts a list into pieces of `n + 1` elements; the last piece may be shorter. -/
def chunks {α : Type} (n : Nat) (xs : List α) : List (List α) :=
  match xs with
  | [] => []
  | x :: xs => (x :: xs.take n) :: chunks n (xs.drop n)
termination_by xs.length
decreasing_by
  simp only [List.length_cons, List.length_drop]
  omega

/-- The word whose bit `j` is the `j`th boolean. -/
def wordOf (bits : List Bool) : Word :=
  bits.foldr (fun bit w => w <<< 1 ||| (if bit then 1 else 0)) 0

/-- Tests all items, 64 of them for one word. -/
def packWords {m : Type → Type} [Monad m] {α : Type} (test : α → m Bool) (items : List α) :
    m (List Word) :=
  (chunks 63 items).mapM fun chunk => do
    let bits ← chunk.mapM test
    pure (wordOf bits)

/-- The positions of the items that pass a test. -/
def ofTests {m : Type → Type} [Monad m] [MonadExcept Fault m] {α : Type} (test : α → m Bool)
    (items : List α) : m Bitmap := do
  let words ← packWords test items
  MonadExcept.ofExcept (ofWords words items.length)

/-! ## Watched tests -/

/-- Tests that may end by a fault, with notes of what was tested so far, the latest note first. -/
abbrev Watched (β : Type) := ExceptT Fault (StateM (List β))

/-- Tests an item, and notes that it was tested. -/
def watch {α β : Type} (note : α → β) (test : α → Except Fault Bool) (x : α) : Watched β Bool := do
  modify (note x :: ·)
  ExceptT.mk (pure (test x))

/-- The positions of the items that pass a test, which is shown each item with its position, and
what the test noted for this, one note after the other. -/
def ofTestsNoted {α β : Type} (test : α × Nat → Watched β Bool) (items : List α) :
    Except Fault Bitmap × List β :=
  let (result, notes) := (ofTests test items.zipIdx).run.run []
  (result, notes.reverse)

end Bitmap

end RuleFormula
