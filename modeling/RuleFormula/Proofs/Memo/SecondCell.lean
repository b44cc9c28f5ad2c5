import RuleFormula.Proofs.Memo.InFlight

/-!
# A second cell after an error

A computation that ends with an error leaves its cell empty and takes its key out of the pending
ones: the cell is stranded. A retry computes in the stranded cell, and when the recently used keys
are dropped meanwhile, nothing leads to that cell any more, so the next lookup makes a second cell
and a second computation of the key starts. One error is enough (`exists_two_computing`), and
without errors there is never more than one computation of a key: `at_most_one_computing_iff` puts
both together.
-/

namespace RuleFormula

namespace Memo

variable {κ ν ε : Type} [DecidableEq κ] {m : Memo κ ν} {key : κ} {cell : Nat}

/-- The number of computations of a key that ended with an error. -/
def failures (m : Memo κ ν) (key : κ) : Nat :=
  m.journal.countP fun
    | .failed k _ => k = key
    | _ => false

/-- A key has no failures when no computation of it has failed. -/
lemma failures_eq_zero : m.failures key = 0 ↔ ∀ cell, .failed key cell ∉ m.journal := by
  rw [failures, List.countP_eq_zero]
  constructor
  · intro h cell he
    exact h _ he (decide_eq_true rfl)
  · intro h e he
    cases e with
    | failed k cell =>
      intro hk
      exact h cell (of_decide_eq_true hk ▸ he)
    | _ => exact Bool.false_ne_true

/-- An empty cell of a key that is recently used and not pending. -/
structure Stranded (m : Memo κ ν) (key : κ) (cell : Nat) : Prop where
  recent : cellOf? m.recent key = some cell
  pending : cellOf? m.pending key = none
  empty : m.value? cell = none
  lt_length : cell < m.cells.length

/-- A computation that fails leaves its key stranded in an empty cell. -/
lemma stranded_of_failed {m' : Memo κ ν} (hl : m.lookup key = (cell, m'))
    (hv : m'.value? cell = none) (hlt : cell < m'.cells.length) :
    (((m'.start key cell).log (.failed key cell)).settle key).Stranded key cell where
  recent := by
    have found := m.cellOf?_recent_lookup key
    rw [hl] at found
    exact found
  pending := cellOf?_without_self _ _
  empty := hv
  lt_length := hlt

end Memo

namespace Machine

variable {κ ν ε : Type} [DecidableEq κ] {s : Machine κ ν ε} {cell : Nat} {key : κ}
  {body : Unit → Computation κ ν ε} {calls : List (Call κ ν ε)}
  {results : List (Outcome ε (Shared ν))} {m : Memo κ ν}

omit [DecidableEq κ] in
/-- A cell stays free when a thread is put that holds none. -/
lemma free_set (i : Nat) (h : s.free cell = true) {t : Thread κ ν ε} (ht : t.held = []) :
    free ⟨m, s.threads.set i t⟩ cell = true := by
  refine List.all_eq_true.2 fun u hu => ?_
  obtain hu | rfl := List.mem_or_eq_of_mem_set hu
  · exact List.all_eq_true.1 h u hu
  · rw [ht]
    rfl

/-- A thread with a call of a key gets to compute it, if its cell is empty and free. -/
lemma reaches_computing (i : Nat)
    (ht : s.threads[i]? = some ⟨.get key body :: calls, .idle, [], results⟩)
    (hl : s.memo.lookup key = (cell, m)) (hv : m.value? cell = none) (hfree : s.free cell = true) :
    Reaches s ⟨m.start key cell,
      s.threads.set i ⟨calls, .running (body ()), [⟨key, cell, .thread⟩], results⟩⟩ := by
  obtain rfl : (s.memo.lookup key).1 = cell := congrArg Prod.fst hl
  obtain rfl : (s.memo.lookup key).2 = m := congrArg Prod.snd hl
  have next := getElem?_set_of_some ht
  have run := (reaches_step i ht .ask).trans
    ((reaches_step i (next _) (.enter (free_set i hfree rfl))).trans
      (reaches_step i (getElem?_set_of_some (next _) _) (.start hv)))
  rw [List.set_set, List.set_set] at run
  exact run

/-- A computation that has failed gets to hand its error to the thread. -/
lemma reaches_failed (i : Nat) {e : ε} (ht : s.threads[i]? =
      some ⟨calls, .running (.done (.error e)), [⟨key, cell, .thread⟩], results⟩) :
    Reaches s ⟨(s.memo.log (.failed key cell)).settle key,
      s.threads.set i ⟨calls, .idle, [], results ++ [.returned (.error e)]⟩⟩ := by
  have next := getElem?_set_of_some ht
  have run := (reaches_step i ht .finish).trans ((reaches_step i (next _) .settle).trans
    (reaches_step i (getElem?_set_of_some (next _) _) .fill))
  rw [List.set_set, List.set_set] at run
  exact run

/-- A key with a stranded cell can be computed by two threads: the first retries in the stranded
cell, which is then dropped, and the second makes another cell. -/
lemma Reaches.two_computing (h : m.Stranded key cell) (first second : Unit → Computation κ ν ε) :
    ∃ s : Machine κ ν ε,
      Reaches ⟨m, [⟨[.get key first], .idle, [], results⟩, .start [.clear, .get key second]]⟩ s ∧
      s.memo.failures key = m.failures key ∧ ¬ s.AtMostOneComputing key := by
  obtain ⟨m₁, retry, empty₁, pending₁, cells₁, journal₁⟩ : ∃ m₁, m.lookup key = (cell, m₁) ∧
      m₁.value? cell = none ∧ Memo.cellOf? m₁.pending key = none ∧ m₁.cells = m.cells ∧
      m₁.journal = .lookup key :: m.journal :=
    ⟨_, Memo.lookup_of_recent h.recent, h.empty, h.pending, rfl, rfl⟩
  obtain ⟨m₂, again, empty₂, journal₂⟩ : ∃ m₂,
      (m₁.start key cell).clear.lookup key = (m.cells.length, m₂) ∧
      m₂.value? m.cells.length = none ∧
      m₂.journal = .lookup key :: .clear :: .start key cell :: m₁.journal := by
    have dropped : Memo.cellOf? (m₁.start key cell).clear.recent key = none := rfl
    have again := Memo.lookup_of_none dropped pending₁
    have len : (m₁.start key cell).clear.cells.length = m.cells.length := congrArg _ cells₁
    have fresh := (m₁.start key cell).clear.value?_lookup key m.cells.length
    have none : (m₁.start key cell).clear.value? m.cells.length = none := by
      rw [Memo.value?, List.getElem?_eq_none (Nat.le_of_eq len)]
      rfl
    rw [len] at again
    rw [again, none] at fresh
    exact ⟨_, again, fresh, rfl⟩
  -- the first thread is at work in its cell when the memo is cleared
  have run₁ : Reaches
      ⟨m, [⟨[.get key first], .idle, [], results⟩, .start [.clear, .get key second]]⟩
      ⟨m₁.start key cell, [⟨[], .running (first ()), [⟨key, cell, .thread⟩], results⟩,
        .start [.clear, .get key second]]⟩ :=
    reaches_computing 0 rfl retry empty₁ rfl
  have run₂ : Reaches
      ⟨m₁.start key cell, [⟨[], .running (first ()), [⟨key, cell, .thread⟩], results⟩,
        .start [.clear, .get key second]]⟩
      ⟨(m₁.start key cell).clear, [⟨[], .running (first ()), [⟨key, cell, .thread⟩], results⟩,
        .start [.get key second]]⟩ :=
    reaches_step 1 rfl .drop
  have run₃ : Reaches
      ⟨(m₁.start key cell).clear, [⟨[], .running (first ()), [⟨key, cell, .thread⟩], results⟩,
        .start [.get key second]]⟩
      ⟨m₂.start key m.cells.length, [⟨[], .running (first ()), [⟨key, cell, .thread⟩], results⟩,
        ⟨[], .running (second ()), [⟨key, m.cells.length, .thread⟩], []⟩]⟩ := by
    refine reaches_computing 1 rfl again empty₂ ?_
    have ne := Nat.ne_of_lt h.lt_length
    simp [free, Thread.held, Thread.start, ne]
  refine ⟨_, run₁.trans (run₂.trans run₃), ?_, ?_⟩
  · show List.countP _ (.start key m.cells.length :: m₂.journal) = _
    rw [journal₂, journal₁]
    rfl
  · intro one
    have e := one 0 1 _ _ rfl rfl ⟨_, List.mem_cons_self, rfl⟩ ⟨_, List.mem_cons_self, rfl⟩
    cases e

/-- A computation that fails at once. -/
def failing (e : ε) : Unit → Computation κ ν ε := fun _ => .done (.error e)

/-- After one error two threads may compute the key at one time. -/
lemma exists_two_computing (capacity : Nat) (pos : 0 < capacity) (key : κ) (e : ε) :
    ∃ (threads : List (List (Call κ ν ε))) (s : Machine κ ν ε),
      Reaches (start (.new capacity pos) threads) s ∧ s.memo.failures key = 1 ∧
      ¬ s.AtMostOneComputing key := by
  obtain ⟨m, ask, empty, length, journal⟩ : ∃ m,
      (Memo.new capacity pos : Memo κ ν).lookup key = (0, m) ∧ m.value? 0 = none ∧
      0 < m.cells.length ∧ m.journal = [.lookup key] :=
    ⟨_, Memo.lookup_of_none rfl rfl, rfl, Nat.zero_lt_one, rfl⟩
  have run₁ : Reaches
      (start (.new capacity pos)
        [[.get key (failing e), .get key (failing e)], [.clear, .get key (failing e)]])
      ⟨m.start key 0, [⟨[.get key (failing e)], .running (failing e ()), [⟨key, 0, .thread⟩], []⟩,
        .start [.clear, .get key (failing e)]]⟩ :=
    reaches_computing 0 rfl ask empty rfl
  have run₂ : Reaches
      ⟨m.start key 0, [⟨[.get key (failing e)], .running (failing e ()), [⟨key, 0, .thread⟩], []⟩,
        .start [.clear, .get key (failing e)]]⟩
      ⟨((m.start key 0).log (.failed key 0)).settle key,
        [⟨[.get key (failing e)], .idle, [], [] ++ [.returned (.error e)]⟩,
        .start [.clear, .get key (failing e)]]⟩ :=
    reaches_failed 0 rfl
  obtain ⟨s, run₃, hfailures, htwo⟩ :=
    Reaches.two_computing (Memo.stranded_of_failed ask empty length) (failing e) (failing e)
  refine ⟨_, s, run₁.trans (run₂.trans run₃), ?_, htwo⟩
  rw [hfailures]
  show List.countP _ (.failed key 0 :: .start key 0 :: m.journal) = 1
  rw [journal]
  simp

/-- However large the capacity is, at most one thread computes a key in every state that can be
reached with a bounded number of errors of the key exactly when the bound is zero. -/
theorem at_most_one_computing_iff (capacity : Nat) (pos : 0 < capacity) (key : κ) (e : ε)
    (n : Nat) :
    (∀ (threads : List (List (Call κ ν ε))) (s : Machine κ ν ε),
      Reaches (start (.new capacity pos) threads) s → s.memo.failures key ≤ n →
      s.AtMostOneComputing key) ↔ n = 0 := by
  constructor
  · intro h
    obtain ⟨threads, s, hrun, hfailures, htwo⟩ := @exists_two_computing κ ν ε _ capacity pos key e
    refine Decidable.byContradiction fun hn => htwo (h threads s hrun ?_)
    rw [hfailures]
    exact Nat.one_le_iff_ne_zero.2 hn
  · rintro rfl threads s hrun hfailures
    obtain ⟨owners, hs⟩ := exists_ordered hrun
    exact hs.atMostOneComputing (Memo.failures_eq_zero.1 (Nat.le_zero.1 hfailures))

/-- A memo without errors, whatever the threads are and do. -/
theorem at_most_one_computing_without_errors :
    0 < 1 ∧ ∀ (threads : List (List (Call String Nat String))) (s : Machine String Nat String),
      Reaches (start (.new 1 Nat.one_pos) threads) s → s.memo.failures "k" ≤ 0 →
      s.AtMostOneComputing "k" :=
  ⟨Nat.one_pos, (at_most_one_computing_iff 1 Nat.one_pos "k" "boom" 0).2 rfl⟩

/-- With room for one key: after an error of `k` the first thread retries it, the second computes
`j`, which pushes `k` out, and then `k`, while the first is still at it. -/
theorem two_computing_after_error : ∃ s : Machine String Nat String,
    Reaches (start (.new 1 Nat.one_pos)
      [[.get "k" fun _ => .done (.error "boom"), .get "k" fun _ => .done (.ok 1)],
       [.get "j" fun _ => .done (.ok 2), .get "k" fun _ => .done (.ok 3)]]) s ∧
    ¬ s.AtMostOneComputing "k" := by
  refine ⟨_, ⟨[0, 0, 0, 0, 0, 0, 0, 0, 0, 1, 1, 1, 1, 1, 1, 1, 1, 1], rfl⟩, fun one => ?_⟩
  have e := one 0 1 _ _ rfl rfl ⟨_, List.mem_cons_self, rfl⟩ ⟨_, List.mem_cons_self, rfl⟩
  cases e

end Machine

end RuleFormula
