import RuleFormula.Memo.Basic

/-!
# Computations

What a caller hands to the memo as the way to compute a value: a tree of the steps that matter to
the memo. A computation may clear the memo, may wait while others do a part of its work, and may ask
the memo for other keys; what it does next may depend on how the call ended, and so it may also go
on after a fault. The way to compute a key is held back until the memo turns out to have no value
for it. `run` carries a computation out for a caller that is alone, and `Memo.get` is a call with a
computation.
-/

namespace RuleFormula

/-- A way to compute a value of `ν`, or to fail with an error of `ε`, with the help of a memo. -/
inductive Computation (κ ν ε : Type)
  | done (result : Except ε ν)
  | abort (fault : Fault)
  | clear (next : Computation κ ν ε)
  /-- Waits while others work on a key, of which they do the parts with these numbers. -/
  | await (key : κ) (parts : List Nat) (next : Computation κ ν ε)
  /-- Asks the memo for a key, to be computed by `body` where it has no value, and goes on with how
  the call ended. -/
  | get (key : κ) (body : Unit → Computation κ ν ε)
    (next : Outcome ε (Shared ν) → Computation κ ν ε)

namespace Computation

variable {κ ν ε : Type} [DecidableEq κ]

/-- Carries a computation out. -/
def run : Computation κ ν ε → Memo κ ν → Outcome ε ν × Memo κ ν
  | done result, m => (.returned result, m)
  | abort fault, m => (.aborted fault, m)
  | clear next, m => run next m.clear
  | await key parts next, m => run next (m.log (.worked key parts))
  | get key body next, m =>
    let (outcome, m) := m.getWith key fun m => run (body ()) m
    run (next outcome) m

end Computation

/-- The value of a key, computed where the memo has none. -/
def Memo.get {κ ν ε : Type} [DecidableEq κ] (m : Memo κ ν) (key : κ)
    (body : Unit → Computation κ ν ε) : Outcome ε (Shared ν) × Memo κ ν :=
  m.getWith key fun m => (body ()).run m

end RuleFormula
