import Mathlib.Tactic.Lemma
import RuleFormula.Memo.Basic

/-!
# The owners of cells

Each cell was made for one key, its owner, and both tables lead from a key to cells of its own only.
`Owned` says so of a memo and the list of owners. No operation takes a cell from its owner: at most
a new owner comes at the end of the list, when a lookup makes a cell. `Sound` says in addition that
the value in a cell suits its owner.
-/

namespace RuleFormula

namespace Memo

variable {κ ν ε : Type} {owners : List κ} {m : Memo κ ν} {key : κ} {cell c : Nat}

/-- The tables lead from each key to cells that were made for it. -/
structure Owned (owners : List κ) (m : Memo κ ν) : Prop where
  length_eq : owners.length = m.cells.length
  recent : ∀ e ∈ m.recent, owners[e.2]? = some e.1
  pending : ∀ e ∈ m.pending, owners[e.2]? = some e.1

/-- The cells of a new memo have their owners, for there are none. -/
lemma Owned.new (capacity : Nat) (pos : 0 < capacity) :
    Owned [] (Memo.new capacity pos : Memo κ ν) where
  length_eq := rfl
  recent _ he := absurd he List.not_mem_nil
  pending _ he := absurd he List.not_mem_nil

/-- Writing an event leaves the owners alone. -/
lemma Owned.log (h : Owned owners m) (e : Event κ ν) : Owned owners (m.log e) :=
  ⟨h.length_eq, h.recent, h.pending⟩

/-- A clear forgets which keys were used recently, and takes no cell from its owner. -/
lemma Owned.clear (h : Owned owners m) : Owned owners m.clear where
  length_eq := h.length_eq
  recent _ he := absurd he List.not_mem_nil
  pending := h.pending

/-- A hit leaves the owners alone. -/
lemma Owned.hit (h : Owned owners m) (key : κ) (cell : Nat) : Owned owners (m.hit key cell) :=
  ⟨h.length_eq, h.recent, h.pending⟩

/-- The start of a computation leaves the owners alone. -/
lemma Owned.start (h : Owned owners m) (key : κ) (cell : Nat) : Owned owners (m.start key cell) :=
  ⟨h.length_eq, h.recent, h.pending⟩

/-- The end of a computation leaves the owners alone. -/
lemma Owned.finish (h : Owned owners m) (key : κ) (cell : Nat) (result : Except ε ν) :
    Owned owners (m.finish key cell result) := by
  cases result with
  | ok v => exact h.log _
  | error e => exact h.log _

/-- A cell that is filled keeps its owner. -/
lemma Owned.fill (h : Owned owners m) (cell : Nat) (result : Except ε ν) :
    Owned owners (m.fill cell result) := by
  cases result with
  | ok v => exact ⟨h.length_eq.trans List.length_set.symm, h.recent, h.pending⟩
  | error e => exact h

variable [DecidableEq κ]

/-- What is in a table without a key is in the table. -/
lemma mem_of_mem_without {table : List (κ × Nat)} {e : κ × Nat} (h : e ∈ without table key) :
    e ∈ table :=
  (List.mem_filter.1 h).1

/-- A key that has a cell in a table is there with it. -/
lemma mem_of_cellOf? {table : List (κ × Nat)} (h : cellOf? table key = some cell) :
    (key, cell) ∈ table := by
  obtain ⟨l₁, l₂, rfl, _⟩ := List.lookup_eq_some_iff.1 h
  exact List.mem_append_right l₁ List.mem_cons_self

/-- The newest entry gives the cell of its key. -/
lemma cellOf?_cons_self (table : List (κ × Nat)) (key : κ) (cell : Nat) :
    cellOf? ((key, cell) :: table) key = some cell :=
  List.lookup_cons_self

/-- The newest entry does not matter to other keys. -/
lemma cellOf?_cons_of_ne {k : κ} (h : k ≠ key) (table : List (κ × Nat)) (cell : Nat) :
    cellOf? ((key, cell) :: table) k = cellOf? table k := by
  rw [cellOf?, List.lookup_cons, beq_false_of_ne h]
  rfl

/-- Taking out a key does not matter to other keys. -/
lemma cellOf?_without_of_ne {k : κ} (h : k ≠ key) (table : List (κ × Nat)) :
    cellOf? (without table key) k = cellOf? table k := by
  induction table with
  | nil => rfl
  | cons e table ih =>
    obtain ⟨k', cell⟩ := e
    by_cases hk : k' = key
    · subst hk
      rw [without, List.filter_cons_of_neg (by simp), cellOf?_cons_of_ne h]
      exact ih
    · rw [without, List.filter_cons_of_pos (by simpa using hk), cellOf?, List.lookup_cons, cellOf?,
        List.lookup_cons]
      rw [cellOf?, cellOf?, without] at ih
      rw [ih]

/-- A key that is taken out has no cell. -/
lemma cellOf?_without_self (table : List (κ × Nat)) (key : κ) :
    cellOf? (without table key) key = none := by
  rw [cellOf?, List.lookup_eq_none_iff]
  intro e he
  have ne : e.1 ≠ key := by simpa using (List.mem_filter.1 he).2
  simpa using ne.symm

/-- The front of the recently used keys is the key that was put there; the rest was there before. -/
lemma mem_recent_promote {e : κ × Nat} (h : e ∈ (m.promote key cell).recent) :
    e = (key, cell) ∨ e ∈ m.recent :=
  (List.mem_cons.1 (List.mem_of_mem_take h)).imp_right mem_of_mem_without

/-- A key that is promoted is among the recently used ones, whatever the capacity. -/
lemma cellOf?_recent_promote (m : Memo κ ν) (key : κ) (cell : Nat) :
    cellOf? (m.promote key cell).recent key = some cell := by
  have pos := m.capacity_pos
  show cellOf? (((key, cell) :: without m.recent key).take m.capacity) key = some cell
  cases h : m.capacity with
  | zero => exact absurd (h ▸ pos) (Nat.lt_irrefl 0)
  | succ n =>
    rw [List.take_succ_cons]
    exact cellOf?_cons_self _ _ _

/-- Taking a key out of the pending ones leaves the owners alone. -/
lemma Owned.settle (h : Owned owners m) (key : κ) : Owned owners (m.settle key) where
  length_eq := h.length_eq
  recent := h.recent
  pending e he := h.pending e (mem_of_mem_without he)

/-- A key may be promoted with a cell of its own. -/
lemma Owned.promote (h : Owned owners m) (hc : owners[cell]? = some key) :
    Owned owners (m.promote key cell) where
  length_eq := h.length_eq
  recent e he := by
    obtain rfl | he := mem_recent_promote he
    · exact hc
    · exact h.recent e he
  pending := h.pending

/-- A lookup gives a cell that one of the tables had for the key, or makes a cell and a pending
entry. -/
lemma lookup_cases (m : Memo κ ν) (key : κ) :
    (∃ cell, cellOf? m.recent key = some cell ∧
      m.lookup key = (cell, (m.log (.lookup key)).promote key cell)) ∨
    (∃ cell, cellOf? m.recent key = none ∧ cellOf? m.pending key = some cell ∧
      m.lookup key = (cell, (m.log (.lookup key)).promote key cell)) ∨
    (cellOf? m.recent key = none ∧ cellOf? m.pending key = none ∧
      m.lookup key = (m.cells.length,
        ({ m.log (.lookup key) with
            cells := m.cells ++ [none]
            pending := (key, m.cells.length) :: m.pending } : Memo κ ν).promote
          key m.cells.length)) := by
  unfold lookup
  have hrecent : (m.log (.lookup key)).recent = m.recent := rfl
  have hpending : (m.log (.lookup key)).pending = m.pending := rfl
  dsimp only
  rw [hrecent, hpending]
  cases hr : cellOf? m.recent key with
  | some cell => exact .inl ⟨cell, rfl, rfl⟩
  | none =>
    cases hp : cellOf? m.pending key with
    | some cell => exact .inr (.inl ⟨cell, rfl, rfl, rfl⟩)
    | none => exact .inr (.inr ⟨rfl, rfl, rfl⟩)

/-- A key that was looked up is found among the recently used ones, with the cell that was given. -/
lemma cellOf?_recent_lookup (m : Memo κ ν) (key : κ) :
    cellOf? (m.lookup key).2.recent key = some (m.lookup key).1 := by
  obtain ⟨_, _, e⟩ | ⟨_, _, _, e⟩ | ⟨_, _, e⟩ := m.lookup_cases key
  all_goals
    rw [e]
    exact cellOf?_recent_promote _ _ _

/-- A key that was used recently keeps its cell. -/
lemma lookup_of_recent (h : cellOf? m.recent key = some cell) :
    m.lookup key = (cell, (m.log (.lookup key)).promote key cell) := by
  obtain ⟨cell', hr, e⟩ | ⟨_, hn, _⟩ | ⟨hn, _⟩ := m.lookup_cases key
  · rw [hr] at h
    rw [e, Option.some.inj h]
  · rw [hn] at h
    cases h
  · rw [hn] at h
    cases h

/-- A key that is in no table gets a new cell, behind the others. -/
lemma lookup_of_none (hr : cellOf? m.recent key = none) (hp : cellOf? m.pending key = none) :
    m.lookup key = (m.cells.length,
      ({ m.log (.lookup key) with
          cells := m.cells ++ [none]
          pending := (key, m.cells.length) :: m.pending } : Memo κ ν).promote
        key m.cells.length) := by
  obtain ⟨_, h, _⟩ | ⟨_, _, h, _⟩ | ⟨_, _, e⟩ := m.lookup_cases key
  · rw [hr] at h
    cases h
  · rw [hp] at h
    cases h
  · exact e

/-- A lookup changes neither what is pending nor the cells, or it makes a pending entry for a cell
that it adds, and there was none for the key before. -/
lemma pending_lookup (m : Memo κ ν) (key : κ) :
    ((m.lookup key).2.pending = m.pending ∧ (m.lookup key).2.cells = m.cells) ∨
    (cellOf? m.pending key = none ∧ (m.lookup key).1 = m.cells.length ∧
      (m.lookup key).2.pending = (key, m.cells.length) :: m.pending ∧
      (m.lookup key).2.cells = m.cells ++ [none]) := by
  obtain ⟨cell, _, e⟩ | ⟨cell, _, _, e⟩ | ⟨_, hp, e⟩ := lookup_cases m key
  · rw [e]
    exact .inl ⟨rfl, rfl⟩
  · rw [e]
    exact .inl ⟨rfl, rfl⟩
  · rw [e]
    exact .inr ⟨hp, rfl, rfl, rfl⟩

omit [DecidableEq κ] in
/-- A cell keeps its owner when new cells are made. -/
lemma getElem?_append_some {c : Nat} (h : owners[c]? = some key) (more : List κ) :
    (owners ++ more)[c]? = some key := by
  obtain ⟨hlt, _⟩ := List.getElem?_eq_some_iff.1 h
  rw [List.getElem?_append_left hlt, h]

/-- A lookup gives a cell of the key; where it makes a cell it adds the key to the owners. -/
lemma Owned.lookup (h : Owned owners m) (key : κ) :
    ∃ more, Owned (owners ++ more) (m.lookup key).2 ∧
      (owners ++ more)[(m.lookup key).1]? = some key := by
  obtain ⟨cell, hr, e⟩ | ⟨cell, _, hp, e⟩ | ⟨_, _, e⟩ := lookup_cases m key
  · have hc := h.recent _ (mem_of_cellOf? hr)
    refine ⟨[], ?_⟩
    rw [e, List.append_nil]
    exact ⟨(h.log _).promote hc, hc⟩
  · have hc := h.pending _ (mem_of_cellOf? hp)
    refine ⟨[], ?_⟩
    rw [e, List.append_nil]
    exact ⟨(h.log _).promote hc, hc⟩
  · have hc : (owners ++ [key])[m.cells.length]? = some key := by
      rw [← h.length_eq, List.getElem?_concat_length]
    refine ⟨[key], ?_⟩
    rw [e]
    refine ⟨Owned.promote ⟨?_, fun e he => ?_, fun e he => ?_⟩ hc, hc⟩
    · rw [List.length_append, List.length_append, h.length_eq, List.length_singleton,
        List.length_singleton]
    · exact getElem?_append_some (h.recent e he) [key]
    · obtain rfl | he := List.mem_cons.1 he
      · exact hc
      · exact getElem?_append_some (h.pending e he) [key]

/-! ## The values in the cells -/

omit [DecidableEq κ] in
/-- A cell with a value is there. -/
lemma lt_length_of_value? {v : ν} (h : m.value? c = some v) : c < m.cells.length := by
  obtain ⟨hlt, _⟩ := List.getElem?_eq_some_iff.1 (Option.join_eq_some_iff.1 h)
  exact hlt

omit [DecidableEq κ] in
/-- A value fills its cell and no other. -/
lemma value?_fill_ok (m : Memo κ ν) (cell : Nat) (v : ν) (c : Nat) :
    (m.fill cell (.ok v : Except ε ν)).value? c =
      if cell = c ∧ c < m.cells.length then some v else m.value? c := by
  unfold fill value?
  rw [List.getElem?_set]
  by_cases e : cell = c
  · subst e
    by_cases hc : cell < m.cells.length
    · rw [if_pos rfl, if_pos hc, if_pos ⟨rfl, hc⟩, Option.join_some]
    · rw [if_pos rfl, if_neg hc, if_neg (fun h => hc h.2), List.getElem?_eq_none (Nat.not_lt.1 hc)]
  · rw [if_neg e, if_neg (fun h => e h.1)]

/-- A lookup fills no cell: a new one is empty. -/
lemma value?_lookup (m : Memo κ ν) (key : κ) (c : Nat) :
    (m.lookup key).2.value? c = m.value? c := by
  obtain ⟨cell, _, e⟩ | ⟨cell, _, _, e⟩ | ⟨_, _, e⟩ := lookup_cases m key
  · rw [e]
    rfl
  · rw [e]
    rfl
  · rw [e]
    show ((m.cells ++ [none])[c]?).join = (m.cells[c]?).join
    obtain hc | rfl | hc := Nat.lt_trichotomy c m.cells.length
    · rw [List.getElem?_append_left hc]
    · rw [List.getElem?_concat_length, List.getElem?_eq_none (Nat.le_refl _)]
      rfl
    · rw [List.getElem?_eq_none (Nat.le_of_lt hc), List.getElem?_eq_none]
      rw [List.length_append, List.length_singleton]
      exact hc

/-- Where the empty cells of a key are pending, or else accounted for, they are so after a lookup:
the cell that a lookup makes is pending. -/
lemma Owned.pending_or_of_lookup {more : List κ} {rest : Nat → Prop} {k : κ} {c : Nat}
    (h : Owned owners m) (h' : Owned (owners ++ more) (m.lookup key).2)
    (hk : (owners ++ more)[(m.lookup key).1]? = some key)
    (hcov : ∀ c, owners[c]? = some k → m.value? c = none →
      cellOf? m.pending k = some c ∨ rest c)
    (hc : (owners ++ more)[c]? = some k) (hv : (m.lookup key).2.value? c = none) :
    cellOf? (m.lookup key).2.pending k = some c ∨ rest c := by
  have old (hlt : c < m.cells.length) : owners[c]? = some k := by
    rw [← hc, List.getElem?_append_left (h.length_eq ▸ hlt)]
  have bound : c < (m.lookup key).2.cells.length := by
    obtain ⟨hlt, _⟩ := List.getElem?_eq_some_iff.1 hc
    exact h'.length_eq ▸ hlt
  rw [value?_lookup] at hv
  obtain ⟨hp, hl⟩ | ⟨hn, hnew, hp, hl⟩ := m.pending_lookup key
  · rw [hp]
    exact hcov c (old (hl ▸ bound)) hv
  · rw [hl, List.length_append, List.length_singleton] at bound
    rw [hp]
    obtain hlt | rfl := Nat.lt_succ_iff_lt_or_eq.1 bound
    · obtain h | h := hcov c (old hlt) hv
      · have ne : k ≠ key := by
          rintro rfl
          rw [hn] at h
          cases h
        exact .inl ((cellOf?_cons_of_ne ne _ _).trans h)
      · exact .inr h
    · -- the new cell belongs to the key that was looked up
      obtain rfl := Option.some.inj ((hnew ▸ hk).symm.trans hc)
      exact .inl (cellOf?_cons_self _ _ _)

omit [DecidableEq κ] in
/-- The end of a computation fills no cell yet. -/
lemma value?_finish (m : Memo κ ν) (key : κ) (cell : Nat) (result : Except ε ν) (c : Nat) :
    (m.finish key cell result).value? c = m.value? c := by
  cases result with
  | ok v => rfl
  | error e => rfl

/-! ## Values that suit their keys -/

omit [DecidableEq κ]

/-- The tables lead to cells of the right owners, and each value suits the owner of its cell. -/
structure Sound (good : κ → ν → Prop) (owners : List κ) (m : Memo κ ν) : Prop extends
    Owned owners m where
  suits {c : Nat} {k : κ} {v : ν} : owners[c]? = some k → m.value? c = some v → good k v

variable {good : κ → ν → Prop}

/-- The cells of a new memo hold what they should, for there are none. -/
lemma Sound.new (capacity : Nat) (pos : 0 < capacity) :
    Sound good [] (Memo.new capacity pos : Memo κ ν) :=
  ⟨.new capacity pos, fun h => absurd h (List.getElem?_nil ▸ nofun)⟩

/-- Cells that hold the same values hold what they should. -/
lemma Sound.of_value?_eq {m' : Memo κ ν} (h : Sound good owners m) (ho : Owned owners m')
    (hv : ∀ c, m'.value? c = m.value? c) : Sound good owners m' :=
  ⟨ho, fun hk hc => h.suits hk (hv _ ▸ hc)⟩

/-- Filling a cell with what its key should have keeps a memo sound. -/
lemma Sound.fill (h : Sound good owners m) (hc : owners[cell]? = some key) {result : Except ε ν}
    (hv : ∀ v, result = .ok v → good key v) : Sound good owners (m.fill cell result) := by
  cases result with
  | error e => exact h
  | ok v =>
    refine ⟨h.toOwned.fill cell _, fun {c k w} hk hw => ?_⟩
    rw [value?_fill_ok] at hw
    split at hw
    · next e =>
      obtain ⟨rfl, _⟩ := e
      obtain rfl := Option.some.inj hw
      obtain rfl := Option.some.inj (hc.symm.trans hk)
      exact hv _ rfl
    · exact h.suits hk hw

/-- A lookup keeps a memo sound, and gives a cell of the key. -/
lemma Sound.lookup [DecidableEq κ] (h : Sound good owners m) (key : κ) :
    ∃ more, Sound good (owners ++ more) (m.lookup key).2 ∧
      (owners ++ more)[(m.lookup key).1]? = some key := by
  obtain ⟨more, ho, hc⟩ := h.toOwned.lookup key
  refine ⟨more, ⟨ho, fun {c k v} hk hv => ?_⟩, hc⟩
  rw [value?_lookup] at hv
  -- a cell with a value is none of the new ones
  rw [List.getElem?_append_left (h.length_eq ▸ lt_length_of_value? hv)] at hk
  exact h.suits hk hv

end Memo

end RuleFormula
