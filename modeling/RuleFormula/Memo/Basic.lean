import RuleFormula.Fault

/-!
# The memo

A memo keeps computed values by key. Each key that is looked up owns a cell, which holds nothing
until its value is computed and then holds that value for good. Two tables lead from keys to cells:

* `recent` lists the keys from the most to the least recently used one and never holds more than
  `capacity`; a new key pushes out the last one;
* `pending` holds the keys whose cell was made and whose computation has not ended in a value or an
  error, so that a key that is pushed out while it is computed is not given a second cell.

What happens is written down in `journal`, the newest event first. The operations here are the
single steps of a call; `getWith` puts them together for a caller that is alone, and `Machine` lets
callers take turns between them.
-/

namespace RuleFormula

/-- A value in a cell of the memo. A cell is filled once, so two results are the same object exactly
when they share the cell. -/
structure Shared (ν : Type) where
  cell : Nat
  value : ν
deriving DecidableEq, Repr

/-- How a computation or a call ends: with a value or an error for its caller, or by a fault that
ends the caller as well. -/
inductive Outcome (ε α : Type)
  | returned (result : Except ε α)
  | aborted (fault : Fault)
deriving Repr

/-- What the journal of a memo records. -/
inductive Event (κ ν : Type)
  | lookup (key : κ)
  | clear
  | hit (key : κ) (cell : Nat)
  | start (key : κ) (cell : Nat)
  | produced (key : κ) (cell : Nat) (value : ν)
  | failed (key : κ) (cell : Nat)
  | aborted (key : κ) (cell : Nat)
  /-- While the computation of a key waited, others did parts of its work. -/
  | worked (key : κ) (parts : List Nat)
deriving DecidableEq, Repr

/-- Keys with their cells, and the cells. -/
structure Memo (κ ν : Type) where
  capacity : Nat
  capacity_pos : 0 < capacity
  /-- The recently used keys, the latest first. -/
  recent : List (κ × Nat)
  /-- The keys whose computation has not ended in a value or an error. -/
  pending : List (κ × Nat)
  /-- The cells in the order in which they were made. -/
  cells : List (Option ν)
  hits : Nat
  misses : Nat
  /-- What happened so far, the newest event first. -/
  journal : List (Event κ ν)

namespace Memo

variable {κ ν ε : Type}

/-- The memo with nothing in it. -/
def new (capacity : Nat) (capacity_pos : 0 < capacity) : Memo κ ν :=
  ⟨capacity, capacity_pos, [], [], [], 0, 0, []⟩

/-- The number of recently used keys, whether their cells are filled or not. -/
def size (m : Memo κ ν) : Nat := m.recent.length

/-- The value in a cell, if it is filled. -/
def value? (m : Memo κ ν) (cell : Nat) : Option ν := (m.cells[cell]?).join

/-- Writes an event down. -/
def log (m : Memo κ ν) (e : Event κ ν) : Memo κ ν := { m with journal := e :: m.journal }

/-- Drops all recently used keys; computations under way go on. -/
def clear (m : Memo κ ν) : Memo κ ν := { m with recent := [] }.log .clear

/-- Counts a call that found a value. -/
def hit (m : Memo κ ν) (key : κ) (cell : Nat) : Memo κ ν :=
  { m with hits := m.hits + 1 }.log (.hit key cell)

/-- Counts a call that found an empty cell, and starts its computation. -/
def start (m : Memo κ ν) (key : κ) (cell : Nat) : Memo κ ν :=
  { m with misses := m.misses + 1 }.log (.start key cell)

/-- Writes down that the computation of a key ended with a value or an error. -/
def finish (m : Memo κ ν) (key : κ) (cell : Nat) : Except ε ν → Memo κ ν
  | .ok v => m.log (.produced key cell v)
  | .error _ => m.log (.failed key cell)

/-- Fills a cell with the value of its computation; an error leaves it empty. -/
def fill (m : Memo κ ν) (cell : Nat) : Except ε ν → Memo κ ν
  | .ok v => { m with cells := m.cells.set cell (some v) }
  | .error _ => m

/-- The result of a computation as its caller gets it, with the cell that holds the value. -/
def share (cell : Nat) (result : Except ε ν) : Except ε (Shared ν) := result.map (⟨cell, ·⟩)

variable [DecidableEq κ]

/-- The cell that a table gives a key. -/
def cellOf? (table : List (κ × Nat)) (key : κ) : Option Nat := table.lookup key

/-- A table without a key. -/
def without (table : List (κ × Nat)) (key : κ) : List (κ × Nat) := table.filter (·.1 ≠ key)

/-- Puts a key in front of the recently used ones, and pushes out what is over the capacity. -/
def promote (m : Memo κ ν) (key : κ) (cell : Nat) : Memo κ ν :=
  { m with recent := ((key, cell) :: without m.recent key).take m.capacity }

/-- Takes a key out of the pending ones. -/
def settle (m : Memo κ ν) (key : κ) : Memo κ ν := { m with pending := without m.pending key }

/-- The cell of a key: of the recently used one, else of the pending one, else a new empty cell that
is pending from now on. In each case the key is then the latest used one. -/
def lookup (m : Memo κ ν) (key : κ) : Nat × Memo κ ν :=
  let m := m.log (.lookup key)
  match cellOf? m.recent key with
  | some cell => (cell, m.promote key cell)
  | none =>
    match cellOf? m.pending key with
    | some cell => (cell, m.promote key cell)
    | none =>
      let cell := m.cells.length
      let m := { m with cells := m.cells ++ [none], pending := (key, cell) :: m.pending }
      (cell, m.promote key cell)

/-- A whole call of a caller that is alone: looks the cell of the key up, and gives the value in it
or else runs the computation `body` and fills the cell with its value. An error fills nothing. A
fault fills nothing either, and leaves the key pending. -/
def getWith (m : Memo κ ν) (key : κ) (body : Memo κ ν → Outcome ε ν × Memo κ ν) :
    Outcome ε (Shared ν) × Memo κ ν :=
  let (cell, m) := m.lookup key
  match m.value? cell with
  | some v => (.returned (.ok ⟨cell, v⟩), m.hit key cell)
  | none =>
    match body (m.start key cell) with
    | (.returned result, m) =>
      (.returned (share cell result), ((m.finish key cell result).settle key).fill cell result)
    | (.aborted fault, m) => (.aborted fault, m.log (.aborted key cell))

end Memo

end RuleFormula
