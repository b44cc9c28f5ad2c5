import RuleFormula.Memo.Computation

/-!
# Threads that share a memo

Each thread makes calls one after the other. A call takes several steps, and other threads may take
steps in between: it looks up the cell of its key; waits until no one holds the cell, and takes hold
of it; looks into the cell, and either has its value or starts the computation; when that ends,
takes the key out of the pending ones; fills the cell and lets go of it. The calls that a
computation makes take the same steps, while the thread still holds the cells of all the calls
around.

While a computation waits for others, its thread need not stand still: it may take up its next call
aside, holding on to all its cells, and comes back to the computation when that call is over. A
`Turn` says which of the two a thread does, and `Machine.step?` is one step of one thread. It gives
nothing where the thread waits for a cell, has no call left, or has no computation that waits.
-/

namespace RuleFormula

namespace Machine

variable {κ ν ε : Type}

/-- A call that a thread is to make. -/
inductive Call (κ ν ε : Type)
  | get (key : κ) (body : Unit → Computation κ ν ε)
  | clear

/-- What a thread does when a call is over. -/
inductive Resume (κ ν ε : Type)
  /-- The thread itself made the call, and goes on with its next one. -/
  | thread
  /-- A computation made the call, and goes on with how it ended. -/
  | nested (next : Outcome ε (Shared ν) → Computation κ ν ε)
  /-- The thread took the call up aside, and comes back to a computation that waits. -/
  | aside (rest : Computation κ ν ε)

/-- A call whose cell the thread holds. -/
structure Frame (κ ν ε : Type) where
  key : κ
  /-- The cell of the key, held until the call is over. -/
  cell : Nat
  resume : Resume κ ν ε

/-- Where in a call a thread is. All but `idle` and `queued` are about the innermost call, whose
frame is the first one. -/
inductive Control (κ ν ε : Type)
  /-- Between two calls of the thread. -/
  | idle
  /-- The cell was looked up, and is not held yet. -/
  | queued (key : κ) (cell : Nat) (body : Unit → Computation κ ν ε) (resume : Resume κ ν ε)
  /-- The cell is held, and was not looked into. -/
  | entered (body : Unit → Computation κ ν ε)
  /-- The computation runs. -/
  | running (rest : Computation κ ν ε)
  /-- The computation has ended; the key is still pending. -/
  | ended (result : Except ε ν)
  /-- The key is not pending any more; the cell is not filled yet. -/
  | settled (result : Except ε ν)
  /-- A fault ended the computation; the cell is still held. -/
  | unwinding (fault : Fault)

/-- A thread: its calls to come, the calls it is in, and how the calls that it made ended. -/
structure Thread (κ ν ε : Type) where
  calls : List (Call κ ν ε)
  /-- Where the thread is. -/
  control : Control κ ν ε
  /-- The calls whose cells it holds, the innermost first. -/
  frames : List (Frame κ ν ε)
  results : List (Outcome ε (Shared ν))

namespace Thread

/-- A thread that has not begun. -/
def start (calls : List (Call κ ν ε)) : Thread κ ν ε := ⟨calls, .idle, [], []⟩

/-- The cells that the thread holds. -/
def held (t : Thread κ ν ε) : List Nat := t.frames.map (·.cell)

/-- Hands the end of a call to the computation that made it, or notes it where the thread made the
call or took it up aside. -/
def deliver (t : Thread κ ν ε) (resume : Resume κ ν ε) (outcome : Outcome ε (Shared ν)) :
    Thread κ ν ε :=
  match resume with
  | .thread => { t with control := .idle, results := t.results ++ [outcome] }
  | .nested next => { t with control := .running (next outcome) }
  | .aside rest => { t with control := .running rest, results := t.results ++ [outcome] }

variable [DecidableEq κ]

/-- Takes up the next call of a thread. -/
def takeUp? (t : Thread κ ν ε) (resume : Resume κ ν ε) (m : Memo κ ν) :
    Option (Thread κ ν ε × Memo κ ν) :=
  match t.calls with
  | [] => none
  | .clear :: calls => some ({ t with calls }, m.clear)
  | .get key body :: calls =>
    let (cell, m) := m.lookup key
    some ({ t with calls, control := .queued key cell body resume }, m)

/-- The next step of a thread, where `free` tells which cells no thread holds. -/
def step? (free : Nat → Bool) (t : Thread κ ν ε) (m : Memo κ ν) :
    Option (Thread κ ν ε × Memo κ ν) :=
  match t.control, t.frames with
  | .idle, _ => t.takeUp? .thread m
  | .queued key cell body resume, frames =>
    if free cell then
      some ({ t with control := .entered body, frames := ⟨key, cell, resume⟩ :: frames }, m)
    else none
  | .entered body, f :: frames =>
    match m.value? f.cell with
    | some v =>
      some ({ t with frames }.deliver f.resume (.returned (.ok ⟨f.cell, v⟩)), m.hit f.key f.cell)
    | none => some ({ t with control := .running (body ()) }, m.start f.key f.cell)
  | .running (.done result), f :: _ =>
    some ({ t with control := .ended result }, m.finish f.key f.cell result)
  | .running (.abort fault), _ => some ({ t with control := .unwinding fault }, m)
  | .running (.clear next), _ => some ({ t with control := .running next }, m.clear)
  | .running (.await key parts next), _ =>
    some ({ t with control := .running next }, m.log (.worked key parts))
  | .running (.get key body next), _ =>
    let (cell, m) := m.lookup key
    some ({ t with control := .queued key cell body (.nested next) }, m)
  | .ended result, f :: _ => some ({ t with control := .settled result }, m.settle f.key)
  | .settled result, f :: frames =>
    some ({ t with frames }.deliver f.resume (.returned (Memo.share f.cell result)),
      m.fill f.cell result)
  | .unwinding fault, f :: frames =>
    some ({ t with frames }.deliver f.resume (.aborted fault), m.log (.aborted f.key f.cell))
  | _, [] => none

/-- A thread whose computation waits takes up its next call aside. -/
def aside? (t : Thread κ ν ε) (m : Memo κ ν) : Option (Thread κ ν ε × Memo κ ν) :=
  match t.control with
  | .running (.await key parts next) => t.takeUp? (.aside (.await key parts next)) m
  | _ => none

/-- What a thread does in a turn: it takes a call up aside, or takes its next step. -/
def turn? (free : Nat → Bool) (aside : Bool) (t : Thread κ ν ε) (m : Memo κ ν) :
    Option (Thread κ ν ε × Memo κ ν) :=
  match aside with
  | true => t.aside? m
  | false => t.step? free m

end Thread

end Machine

/-- Threads and the memo that they share. -/
structure Machine (κ ν ε : Type) where
  memo : Memo κ ν
  threads : List (Machine.Thread κ ν ε)

namespace Machine

variable {κ ν ε : Type}

/-- Threads that are about to make their calls. -/
def start (memo : Memo κ ν) (threads : List (List (Call κ ν ε))) : Machine κ ν ε :=
  ⟨memo, threads.map Thread.start⟩

/-- Whether no thread holds a cell. -/
def free (s : Machine κ ν ε) (cell : Nat) : Bool := s.threads.all fun t => !t.held.contains cell

/-- A turn of a thread: it takes its next step, or takes up a call aside. -/
structure Turn where
  thread : Nat
  aside : Bool
deriving DecidableEq, Repr

/-- A number alone stands for the next step of the thread with this number. -/
instance : Coe Nat Turn := ⟨(⟨·, false⟩)⟩

/-- The same for a literal. -/
instance (i : Nat) : OfNat Turn i := ⟨⟨i, false⟩⟩

/-- One step of one thread; nothing where the thread waits or is through. -/
def step? [DecidableEq κ] (s : Machine κ ν ε) (turn : Turn) : Option (Machine κ ν ε) := do
  let t ← s.threads[turn.thread]?
  let (t, memo) ← t.turn? s.free turn.aside s.memo
  pure ⟨memo, s.threads.set turn.thread t⟩

end Machine

end RuleFormula
