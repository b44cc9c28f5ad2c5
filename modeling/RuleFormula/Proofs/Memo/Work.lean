import Mathlib.Data.List.Perm.Basic
import Mathlib.Tactic.Lemma
import RuleFormula.Memo.Computation

/-!
# The work that others do

While a computation waits, others do parts of the work on its key. A plan says which parts a
computation of a key takes. The parts that were done so far, together with those that computations
under way still owe, are the parts that the started computations take by the plan (`Balanced`): the
start of a computation makes it owe its parts, and others do parts that are owed. So when nothing is
owed any more, the parts of a key that was started once were done once (`Balanced.partsDone_perm`).
Whether a computation takes the parts of a plan can be told from its text (`Computation.Follows`).
-/

namespace RuleFormula

/-- Before a computation of a key ends with a value, it leaves to others the given parts of the work
on the key, one after the other, and no others. It asks for other keys with computations that leave
to others what is planned for those keys. -/
def Computation.Follows {κ ν ε : Type} (plan : κ → List Nat) :
    Computation κ ν ε → κ → List Nat → Prop
  | done (.ok _), _, parts => parts = []
  | done (.error _), _, _ | abort _, _, _ => True
  | clear next, key, parts => next.Follows plan key parts
  | await k now next, key, parts =>
    k = key ∧ ∃ later, parts = now ++ later ∧ next.Follows plan key later
  | get k body next, key, parts => (body ()).Follows plan k (plan k) ∧
    ∀ outcome, (next outcome).Follows plan key parts

namespace Memo

variable {κ ν : Type} {key : κ} {events : List (Event κ ν)} {plan : κ → List Nat}
  {owed : List (κ × Nat)}

/-- The keys whose computations were started, the latest first. -/
def startedKeys (events : List (Event κ ν)) : List κ :=
  events.filterMap fun
    | .start key _ => some key
    | _ => none

/-- The parts of the work on all keys that were done. -/
def workDone (events : List (Event κ ν)) : List (κ × Nat) :=
  events.flatMap fun
    | .worked key parts => parts.map (key, ·)
    | _ => []

/-- The parts that a computation of a key takes by a plan. -/
def due (plan : κ → List Nat) (key : κ) : List (κ × Nat) := (plan key).map (key, ·)

/-- What was done and what is owed are the parts that the started computations take. -/
def Balanced (plan : κ → List Nat) (owed : List (κ × Nat)) (events : List (Event κ ν)) : Prop :=
  (workDone events ++ owed).Perm ((startedKeys events).flatMap (due plan))

/-- A key was started when the start of a computation of it is in the journal. -/
lemma mem_startedKeys : key ∈ startedKeys events ↔ ∃ cell, .start key cell ∈ events := by
  rw [startedKeys, List.mem_filterMap]
  constructor
  · rintro ⟨e, he, hk⟩
    cases e with
    | start _ cell => exact ⟨cell, Option.some.inj hk ▸ he⟩
    | _ => cases hk
  · rintro ⟨cell, h⟩
    exact ⟨_, h, rfl⟩

/-- In the beginning nothing is owed. -/
lemma balanced_nil : Balanced plan [] ([] : List (Event κ ν)) := .refl []

/-- A computation that starts owes the parts that it takes. -/
lemma Balanced.start (h : Balanced plan owed events) (key : κ) (cell : Nat) :
    Balanced plan (due plan key ++ owed) (.start key cell :: events) := by
  show (workDone events ++ (due plan key ++ owed)).Perm
    (due plan key ++ (startedKeys events).flatMap (due plan))
  exact (List.perm_append_comm_assoc _ _ _).trans (h.append_left _)

/-- Parts that are done are owed no more. -/
lemma Balanced.work {parts : List Nat} (h : Balanced plan (parts.map (key, ·) ++ owed) events) :
    Balanced plan owed (.worked key parts :: events) := by
  show (parts.map (key, ·) ++ workDone events ++ owed).Perm _
  rw [List.append_assoc]
  exact (List.perm_append_comm_assoc _ _ _).trans h

variable [DecidableEq κ]

/-- The parts of the work on a key that were done. -/
def partsDone (events : List (Event κ ν)) (key : κ) : List Nat :=
  (workDone events).filterMap fun part => if part.1 = key then some part.2 else none

/-- The parts of one key are its own. -/
lemma filterMap_due (plan : κ → List Nat) (k key : κ) :
    ((due plan k).filterMap fun part => if part.1 = key then some part.2 else none) =
      if k = key then plan k else [] := by
  rw [due, List.filterMap_map]
  split
  · next e => simp [e]
  · next e => simp [e]

/-- What comes with one key comes once from a list where the key stands once. -/
lemma flatMap_of_nodup {β : Type} {keys : List κ} (h : keys.Nodup) (key : κ) (f : κ → List β) :
    (keys.flatMap fun k => if k = key then f k else []) = if key ∈ keys then f key else [] := by
  induction keys with
  | nil => rfl
  | cons k keys ih =>
    obtain ⟨hk, h⟩ := List.nodup_cons.1 h
    rw [List.flatMap_cons, ih h]
    by_cases e : k = key
    · subst e
      rw [if_pos rfl, if_neg hk, if_pos List.mem_cons_self, List.append_nil]
    · have same : key ∈ k :: keys ↔ key ∈ keys := List.mem_cons.trans (or_iff_right (Ne.symm e))
      rw [if_neg e, List.nil_append]
      exact if_congr same.symm rfl rfl

/-- When nothing is owed and no computation was started twice, the parts of each key that was
started were done once, and no others. -/
lemma Balanced.partsDone_perm (h : Balanced plan [] events) (once : (startedKeys events).Nodup)
    (key : κ) :
    (partsDone events key).Perm (if key ∈ startedKeys events then plan key else []) := by
  rw [Balanced, List.append_nil] at h
  refine (h.filterMap _).trans (.of_eq ?_)
  rw [List.filterMap_flatMap]
  simp only [filterMap_due]
  exact flatMap_of_nodup once key plan

end Memo

end RuleFormula
