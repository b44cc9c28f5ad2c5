import RuleFormula.Bitmap.Basic

/-!
# Bitmaps that change in place

A change reads and writes the words of a set that is already there, and may fault on the way. What
it has written when it faults stays written; the set that is there afterwards is given with the
answer or the fault. Each change checks its operands before it writes.
-/

namespace RuleFormula

namespace Bitmap

/-- Words, each combined with the word that has its place in another list. A word without one there
stays as it is. -/
def combinedWords (f : Word → Word → Word) : List Word → List Word → List Word
  | v :: vs, w :: ws => f v w :: combinedWords f vs ws
  | vs, _ => vs

/-- A change of a set in place, which ends with an answer or a fault. -/
abbrev Change (α : Type) := ExceptT Fault (StateM Bitmap) α

namespace Change

variable {α β : Type}

/-- How the change of a set ends, and the set that is there afterwards. -/
def on (change : Change α) (b : Bitmap) : Except Fault α × Bitmap := (change.run.run b).run

/-- A change that is done answers. -/
@[simp] theorem on_pure (answer : α) (b : Bitmap) : on (pure answer) b = (.ok answer, b) := rfl

/-- A fault leaves what has been written. -/
@[simp] theorem on_throw (fault : Fault) (b : Bitmap) :
    on (throw fault : Change α) b = (.error fault, b) := rfl

/-- A change may look at the set. -/
@[simp] theorem on_get_bind (next : Bitmap → Change α) (b : Bitmap) :
    on (get >>= next) b = (next b).on b := rfl

/-- A change may write to the set. -/
@[simp] theorem on_set (c b : Bitmap) : on (set c) b = (.ok (), c) := rfl

/-- Rewrites one word. -/
def word (k : Nat) (f : Word → Word) : Change Unit :=
  modify fun b => { b with words := b.words.modify k f }

/-- What comes after the writing of a word finds it written. -/
@[simp] theorem on_word_bind (k : Nat) (f : Word → Word) (next : Unit → Change α) (b : Bitmap) :
    on (word k f >>= next) b = (next ()).on { b with words := b.words.modify k f } := rfl

/-- Makes `i` a member, and says whether it was none before. -/
def insert (i : Nat) : Change Bool := do
  let b ← get
  if i < b.size then
    word (i / 64) (· ||| BitVec.twoPow 64 (i % 64))
    pure (!bitAt b.words i)
  else throw (.indexOutOfRange i b.size)

/-- Makes `i` no member, and says whether it was one before. -/
def erase (i : Nat) : Change Bool := do
  let b ← get
  if i < b.size then
    word (i / 64) (· &&& ~~~(BitVec.twoPow 64 (i % 64)))
    pure (bitAt b.words i)
  else pure false

/-- Combines the words of the set with those of another one of the same size. -/
def combine (f : Word → Word → Word) (c : Bitmap) : Change Unit := do
  let b ← get
  if b.size = c.size then set { b with words := combinedWords f b.words c.words }
  else throw .sizesDiffer

end Change

/-- Makes an index a member of the set. -/
def insertHere (b : Bitmap) (i : Nat) : Except Fault Bool × Bitmap := (Change.insert i).on b

/-- Makes an index no member of the set. -/
def eraseHere (b : Bitmap) (i : Nat) : Except Fault Bool × Bitmap := (Change.erase i).on b

/-- Keeps the members of the set that are members of another one. -/
def interHere (b c : Bitmap) : Except Fault Unit × Bitmap := (Change.combine (· &&& ·) c).on b

/-- Adds the members of another set. -/
def unionHere (b c : Bitmap) : Except Fault Unit × Bitmap := (Change.combine (· ||| ·) c).on b

end Bitmap

end RuleFormula
